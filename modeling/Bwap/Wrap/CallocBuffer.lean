import Bwap.Common.Runs
import Bwap.Memory.Blocks
import Mathlib.Logic.Function.Basic

/-!
# The bootstrap buffer of `calloc`

`calloc` looks up libc's function with `dlsym`, which may call `calloc` again: while the lookup
runs it is given a static buffer. `calloc`, `realloc` and `free` are followed on one thread, each
call with the calls made below it. A block belongs to the program or to a pending call; what libc
answers is a choice of the step.
-/

namespace Bwap

open Common

/-- `DLSYM_CALLOC_BUFFER_LENGTH`. -/
def dlsymCallocBufferLength : ℕ := 1024 * 1024

/-- `calloc_buffer`. -/
structure CallocBuffer extends Block where
  length_eq : size.toNat = dlsymCallocBufferLength

/-- The contents of memory. -/
abbrev Bytes := Word → BitVec 8

/-- Every byte of a block is zero. -/
def Zeroed (memory : Bytes) (b : Block) : Prop :=
  ∀ a, b.segment.contains a = true → memory a = 0

/-- `memset` of a block to zero. -/
def memsetZero (b : Block) (memory : Bytes) : Bytes :=
  fun a => if b.segment.contains a then 0 else memory a

/-- What `calloc` owes its caller. -/
structure Fulfils (memory : Bytes) (nmemb size : Word) (b : Block) : Prop where
  enough : nmemb.toNat * size.toNat ≤ b.size.toNat
  zeroed : Zeroed memory b

/-- The calls of the wrappers. A pointer that is given back is null or the start of a block. -/
inductive AllocRequest
  | calloc (nmemb size : Word)
  | realloc (old : Option Block) (size : Word)
  | free (old : Option Block)

/-- The block whose pointer a call is given. -/
def AllocRequest.old : AllocRequest → Option Block
  | calloc _ _ => none
  | realloc old _ => old
  | free old => old

/-- What can be seen of a step: `calloc` returned null or the start of a block, or a pointer was
passed to libc or to a handler. -/
inductive WrapperEvent
  | quiet
  | returned (nmemb size : Word) (handed : Option Block)
  | passed (old : Option Block)

/-- A call given to libc or to a handler: it passes on the pointer it was given. -/
def AllocRequest.passed : AllocRequest → WrapperEvent
  | calloc _ _ => .quiet
  | realloc old _ => .passed old
  | free old => .passed old

/-- A call passed on to libc that returns. -/
def AllocRequest.outcome (handed : Option Block) : AllocRequest → WrapperEvent
  | calloc nmemb size => .returned nmemb size handed
  | realloc old _ => .passed old
  | free old => .passed old

/-- A call that has not returned: it waits for `dlsym`, it is in its handler before or after the
call of libc, or it is a `calloc` that logs its result. -/
inductive PendingCall
  | lookup (r : AllocRequest)
  | handler (r : AllocRequest)
  | handled (r : AllocRequest) (handed : Option Block)
  | logging (nmemb size : Word) (handed : Option Block)

namespace PendingCall

/-- The block that a pending call holds. -/
def held : PendingCall → List Block
  | lookup r => r.old.toList
  | handler r => r.old.toList
  | handled _ handed => handed.toList
  | logging _ _ handed => handed.toList

/-- The block that `calloc` got and has still to return is as its caller wants it. -/
def Fulfilled (memory : Bytes) : PendingCall → Prop
  | handled (.calloc nmemb size) handed => ∀ b ∈ handed, Fulfils memory nmemb size b
  | logging nmemb size handed => ∀ b ∈ handed, Fulfils memory nmemb size b
  | _ => True

end PendingCall

/-- The flags, the calls that have not returned, innermost first, the blocks of the program, the
memory, and what the last step showed. -/
structure CallocState where
  isInitialized : Bool
  insideUnstickymem : Bool
  insideDlsym : Bool
  callocBufferInUse : Bool
  pending : List PendingCall
  live : List Block
  memory : Bytes
  event : WrapperEvent

/-- The test `ptr == calloc_buffer`. -/
def CallocBuffer.is (buffer : CallocBuffer) (ptr : Option Block) : Bool :=
  ptr.any fun b => b.start == buffer.start

namespace CallocState

/-- The test with which a wrapper passes the call on. -/
def passesOn (s : CallocState) : Bool := !s.isInitialized || s.insideUnstickymem

/-- A call waits for `dlsym`. -/
def lookUp (r : AllocRequest) (s : CallocState) : CallocState :=
  { s with pending := .lookup r :: s.pending, event := .quiet }

/-- A call enters its handler. -/
def handle (r : AllocRequest) (s : CallocState) : CallocState :=
  { s with insideUnstickymem := true, pending := .handler r :: s.pending, event := r.passed }

/-- The buffer is zeroed and handed out. -/
def takeBuffer (buffer : CallocBuffer) (nmemb size : Word) (s : CallocState) : CallocState :=
  { s with
    callocBufferInUse := true
    live := buffer.toBlock :: s.live
    memory := memsetZero buffer.toBlock s.memory
    event := .returned nmemb size (some buffer.toBlock) }

/-- `calloc`, which stops the process when the buffer is in use. -/
def calloc (buffer : CallocBuffer) (nmemb size : Word) (s : CallocState) : Option CallocState :=
  if s.insideDlsym then
    if s.callocBufferInUse then none else some (s.takeBuffer buffer nmemb size)
  else if s.passesOn then some ({ s with insideDlsym := true }.lookUp (.calloc nmemb size))
  else some (s.handle (.calloc nmemb size))

/-- `realloc`. -/
def realloc (old : Option Block) (size : Word) (s : CallocState) : CallocState :=
  if s.passesOn then s.lookUp (.realloc old size) else s.handle (.realloc old size)

/-- `free`, which takes the buffer back. -/
def free (buffer : CallocBuffer) (old : Option Block) (s : CallocState) : CallocState :=
  if buffer.is old then { s with callocBufferInUse := false, event := .quiet }
  else if s.passesOn then s.lookUp (.free old)
  else s.handle (.free old)

/-- A wrapper is called. -/
def enter (buffer : CallocBuffer) (s : CallocState) : AllocRequest → Option CallocState
  | .calloc nmemb size => s.calloc buffer nmemb size
  | .realloc old size => some (s.realloc old size)
  | .free old => some (s.free buffer old)

/-- `dlsym` is done: libc is called, and the wrapper returns what it answered. -/
def lookupReturns (r : AllocRequest) (handed : Option Block) (rest : List PendingCall)
    (memory : Bytes) (s : CallocState) : CallocState :=
  { s with
    insideDlsym := match r with
      | .calloc _ _ => false
      | _ => s.insideDlsym
    pending := rest
    live := handed.toList ++ s.live
    memory := memory
    event := r.outcome handed }

/-- A handler calls libc. -/
def handlerCalls (r : AllocRequest) (handed : Option Block) (rest : List PendingCall)
    (memory : Bytes) (s : CallocState) : CallocState :=
  { s with pending := .handled r handed :: rest, memory := memory, event := r.passed }

/-- A handler returns: `calloc` logs its result, the others have done so and return. -/
def handlerReturns (r : AllocRequest) (handed : Option Block) (rest : List PendingCall)
    (s : CallocState) : CallocState :=
  match r with
  | .calloc nmemb size =>
    { s with
      insideUnstickymem := false
      pending := .logging nmemb size handed :: rest
      event := .quiet }
  | _ =>
    { s with
      insideUnstickymem := false
      pending := rest
      live := handed.toList ++ s.live
      event := .quiet }

/-- `calloc` returns what its handler got. -/
def logReturns (nmemb size : Word) (handed : Option Block) (rest : List PendingCall)
    (s : CallocState) : CallocState :=
  { s with
    pending := rest
    live := handed.toList ++ s.live
    event := .returned nmemb size handed }

/-- The blocks of the program and of the pending calls. -/
def outstanding (s : CallocState) : List Block := s.live ++ s.pending.flatMap PendingCall.held

end CallocState

/-- The answers of libc, where `fresh` tells which blocks it may hand out. A `realloc` that fails
leaves the old block to the caller. -/
inductive LibcAnswer (fresh : Block → Prop) : AllocRequest → Option Block → Prop
  | calloc {nmemb size : Word} {b : Block} (hfresh : fresh b)
      (henough : nmemb.toNat * size.toNat ≤ b.size.toNat) :
      LibcAnswer fresh (.calloc nmemb size) (some b)
  | callocFails (nmemb size : Word) : LibcAnswer fresh (.calloc nmemb size) none
  | realloc {size : Word} {b : Block} (old : Option Block) (hfresh : fresh b)
      (henough : size.toNat ≤ b.size.toNat) : LibcAnswer fresh (.realloc old size) (some b)
  | reallocFails (old : Option Block) (size : Word) : LibcAnswer fresh (.realloc old size) old
  | reallocReleases (old : Option Block) : LibcAnswer fresh (.realloc old 0) none
  | free (old : Option Block) : LibcAnswer fresh (.free old) none

/-- A call of libc: it hands out no byte of the buffer and of the other outstanding blocks and
changes none of theirs, and `calloc` zeroes what it hands out. -/
structure LibcCall (buffer : CallocBuffer) (others : List Block) (r : AllocRequest)
    (handed : Option Block) (memory memory' : Bytes) : Prop where
  answer : LibcAnswer (fun b => Apart b.segment buffer.segment ∧
    ∀ c ∈ others, Apart b.segment c.segment) r handed
  kept : ∀ c ∈ others, ∀ a, c.segment.contains a = true → memory' a = memory a
  zeroed : ∀ nmemb size, r = .calloc nmemb size → ∀ b ∈ handed, Zeroed memory' b

/-- The steps: the constructor of the library ends, the program writes into a block or calls a
wrapper, the innermost pending call goes on. -/
inductive CallocLabel
  | initialized
  | write (a : Word) (value : BitVec 8)
  | call (r : AllocRequest)
  | resume

/-- The steps of a thread. The program gives back only blocks that it owns. -/
inductive CallocStep (buffer : CallocBuffer) : CallocState → CallocLabel → CallocState → Prop
  | initialized {s : CallocState} (hnone : s.pending = []) :
      CallocStep buffer s .initialized { s with isInitialized := true, event := .quiet }
  | write {s : CallocState} {b : Block} {a : Word} (value : BitVec 8) (hb : b ∈ s.live)
      (ha : b.segment.contains a = true) :
      CallocStep buffer s (.write a value)
        { s with memory := Function.update s.memory a value, event := .quiet }
  | call {s s' : CallocState} {r : AllocRequest} {rest : List Block}
      (hlive : s.live.Perm (r.old.toList ++ rest))
      (henter : { s with live := rest }.enter buffer r = some s') :
      CallocStep buffer s (.call r) s'
  | lookupReturns {s : CallocState} {r : AllocRequest} {handed : Option Block}
      {rest : List PendingCall} {memory : Bytes} (hpending : s.pending = .lookup r :: rest)
      (hlibc : LibcCall buffer (s.live ++ rest.flatMap PendingCall.held) r handed s.memory memory) :
      CallocStep buffer s .resume (s.lookupReturns r handed rest memory)
  | handlerCalls {s : CallocState} {r : AllocRequest} {handed : Option Block}
      {rest : List PendingCall} {memory : Bytes} (hpending : s.pending = .handler r :: rest)
      (hlibc : LibcCall buffer (s.live ++ rest.flatMap PendingCall.held) r handed s.memory memory) :
      CallocStep buffer s .resume (s.handlerCalls r handed rest memory)
  | handlerReturns {s : CallocState} {r : AllocRequest} {handed : Option Block}
      {rest : List PendingCall} (hpending : s.pending = .handled r handed :: rest) :
      CallocStep buffer s .resume (s.handlerReturns r handed rest)
  | logReturns {s : CallocState} {nmemb size : Word} {handed : Option Block}
      {rest : List PendingCall} (hpending : s.pending = .logging nmemb size handed :: rest) :
      CallocStep buffer s .resume (s.logReturns nmemb size handed rest)

/-- What `calloc` returned is large enough, zeroed and apart from every other outstanding block, the
buffer has at most one owner, and it was not passed to libc or to a handler. -/
structure HandedOutSafely (buffer : CallocBuffer) (s : CallocState) : Prop where
  returned : ∀ nmemb size b, s.event = .returned nmemb size (some b) →
    Fulfils s.memory nmemb size b ∧
      ∃ others, s.outstanding.Perm (b :: others) ∧ ∀ c ∈ others, Apart b.segment c.segment
  owners : (s.outstanding.map Block.start).count buffer.start ≤ 1
  passed : ∀ old, s.event = .passed old → buffer.is old = false

/-- A `calloc` below a lookup asks for no more than the buffer, and what `realloc` passes on, to its
handler or after its lookup, is not the buffer. -/
def SparesBuffer (buffer : CallocBuffer) (s : CallocState) : CallocLabel → Prop
  | .call (.calloc nmemb size) =>
    s.insideDlsym = true → nmemb.toNat * size.toNat ≤ dlsymCallocBufferLength
  | .call (.realloc old _) => s.passesOn = false → buffer.is old = false
  | .resume => ∀ old size rest, s.pending = .lookup (.realloc old size) :: rest →
    buffer.is old = false
  | _ => True

/-! ## Who owns what -/

/-- A block shares its first byte with itself. -/
theorem Block.not_apart_self (b : Block) : ¬ Apart b.segment b.segment := by
  intro h
  have hstart := b.segment_contains_start
  rw [h b.start hstart] at hstart
  exact absurd hstart (by simp)

/-- Blocks that are apart start at different addresses. -/
theorem Apart.start_ne {b c : Block} (h : Apart b.segment c.segment) : b.start ≠ c.start := by
  intro hsame
  have hfalse := h b.start b.segment_contains_start
  rw [hsame, c.segment_contains_start] at hfalse
  exact absurd hfalse (by simp)

/-- Outstanding blocks are apart, each of them is the buffer or apart from it, and the buffer is
among them only while it is in use. -/
structure Owned (buffer : CallocBuffer) (inUse : Bool) (blocks : List Block) : Prop where
  apart : blocks.Pairwise fun b c => Apart b.segment c.segment
  clear : ∀ b ∈ blocks, b = buffer.toBlock ∨ Apart b.segment buffer.segment
  inUse : buffer.toBlock ∈ blocks → inUse = true

namespace Owned

variable {buffer : CallocBuffer} {inUse : Bool} {blocks rest : List Block} {b : Block}

/-- The order of the blocks does not matter. -/
theorem perm (h : Owned buffer inUse blocks) (hperm : blocks.Perm rest) :
    Owned buffer inUse rest where
  apart := (hperm.pairwise_iff fun hbc => Apart.symm hbc).mp h.apart
  clear := fun b hb => h.clear b (hperm.mem_iff.mpr hb)
  inUse := fun hmem => h.inUse (hperm.mem_iff.mpr hmem)

/-- Blocks may be given back to libc. -/
theorem sublist (h : Owned buffer inUse blocks) (hsub : rest.Sublist blocks) :
    Owned buffer inUse rest where
  apart := h.apart.sublist hsub
  clear := fun b hb => h.clear b (hsub.subset hb)
  inUse := fun hmem => h.inUse (hsub.subset hmem)

/-- Libc hands out a fresh block. -/
theorem cons (h : Owned buffer inUse blocks) (hbuffer : Apart b.segment buffer.segment)
    (hfresh : ∀ c ∈ blocks, Apart b.segment c.segment) : Owned buffer inUse (b :: blocks) where
  apart := List.pairwise_cons.mpr ⟨hfresh, h.apart⟩
  clear := List.forall_mem_cons.mpr ⟨.inr hbuffer, h.clear⟩
  inUse := by
    intro hmem
    cases List.mem_cons.mp hmem with
    | inl hself => exact absurd (hself ▸ hbuffer) b.not_apart_self
    | inr hold => exact h.inUse hold

/-- While the buffer is not in use every block is apart from it. -/
theorem apart_buffer (h : Owned buffer false blocks) :
    ∀ b ∈ blocks, Apart b.segment buffer.segment := by
  intro b hb
  cases h.clear b hb with
  | inl hself => exact absurd (h.inUse (hself ▸ hb)) (by simp)
  | inr hapart => exact hapart

/-- The buffer is handed out. -/
theorem take (h : Owned buffer false blocks) : Owned buffer true (buffer.toBlock :: blocks) where
  apart := List.pairwise_cons.mpr ⟨fun c hc => (h.apart_buffer c hc).symm, h.apart⟩
  clear := List.forall_mem_cons.mpr ⟨.inl rfl, h.clear⟩
  inUse := fun _ => rfl

/-- A block that starts where the buffer does is the buffer. -/
theorem eq_buffer (h : Owned buffer inUse blocks) (hb : b ∈ blocks)
    (hstart : b.start = buffer.start) : b = buffer.toBlock := by
  cases h.clear b hb with
  | inl hself => exact hself
  | inr hapart => exact absurd hstart hapart.start_ne

/-- The buffer is given back: no other block is the buffer. -/
theorem giveBack (h : Owned buffer inUse (b :: rest)) (hstart : b.start = buffer.start) :
    Owned buffer false rest := by
  obtain rfl := h.eq_buffer List.mem_cons_self hstart
  have hrest := h.sublist (List.sublist_cons_self _ rest)
  refine ⟨hrest.apart, hrest.clear, fun hmem => ?_⟩
  exact absurd ((List.pairwise_cons.mp h.apart).1 _ hmem) (Block.not_apart_self _)

/-- At most one block starts where the buffer does. -/
theorem owners (h : Owned buffer inUse blocks) :
    (blocks.map Block.start).count buffer.start ≤ 1 := by
  have hnodup : (blocks.map Block.start).Nodup := by
    rw [List.Nodup, List.pairwise_map]
    exact h.apart.imp Apart.start_ne
  exact List.nodup_iff_count_le_one.mp hnodup _

end Owned

/-- What a pending call hands on is not the buffer, unless it is a `realloc` in its lookup. -/
def PendingCall.Spares (buffer : CallocBuffer) : PendingCall → Prop
  | lookup (.free old) => buffer.is old = false
  | handler r => buffer.is r.old = false
  | _ => True

/-- What a pending `calloc` has got stays as it is while its blocks keep their contents. -/
theorem PendingCall.Fulfilled.of_kept {memory memory' : Bytes} {call : PendingCall}
    (h : call.Fulfilled memory)
    (hkept : ∀ b ∈ call.held, ∀ a, b.segment.contains a = true → memory' a = memory a) :
    call.Fulfilled memory' := by
  have hfulfils : ∀ nmemb size b, b ∈ call.held → Fulfils memory nmemb size b →
      Fulfils memory' nmemb size b := by
    intro nmemb size b hb hf
    exact ⟨hf.enough, fun a ha => (hkept b hb a ha).trans (hf.zeroed a ha)⟩
  match call with
  | lookup _ => trivial
  | handler _ => trivial
  | handled (.calloc nmemb size) handed =>
    exact fun b hb => hfulfils nmemb size b (Option.mem_toList.mpr hb) (h b hb)
  | handled (.realloc _ _) _ => trivial
  | handled (.free _) _ => trivial
  | logging nmemb size handed =>
    exact fun b hb => hfulfils nmemb size b (Option.mem_toList.mpr hb) (h b hb)

/-- The books between two steps: `extra` are blocks on their way between the program, a pending
call and libc. -/
structure Ledger (buffer : CallocBuffer) (extra : List Block) (inUse : Bool) (live : List Block)
    (pending : List PendingCall) (memory : Bytes) : Prop where
  owned : Owned buffer inUse (extra ++ (live ++ pending.flatMap PendingCall.held))
  spares : ∀ call ∈ pending, call.Spares buffer
  fulfilled : ∀ call ∈ pending, call.Fulfilled memory

namespace Ledger

variable {buffer : CallocBuffer} {extra live rest : List Block} {inUse : Bool}
  {pending : List PendingCall} {memory memory' : Bytes} {call : PendingCall} {b : Block}

/-- Blocks that a pending call holds are outstanding. -/
theorem mem_outstanding (hcall : call ∈ pending) (hb : b ∈ call.held) :
    b ∈ live ++ pending.flatMap PendingCall.held :=
  List.mem_append_right _ (List.mem_flatMap.mpr ⟨call, hcall, hb⟩)

/-- The program gives up some of its blocks. -/
theorem giveUp (h : Ledger buffer [] inUse live pending memory)
    (hlive : live.Perm (extra ++ rest)) : Ledger buffer extra inUse rest pending memory where
  owned := by
    apply h.owned.perm
    rw [List.nil_append, ← List.append_assoc]
    exact hlive.append_right _
  spares := h.spares
  fulfilled := h.fulfilled

/-- The program gets blocks. -/
theorem give (h : Ledger buffer extra inUse live pending memory) :
    Ledger buffer [] inUse (extra ++ live) pending memory where
  owned := by
    rw [List.nil_append, List.append_assoc]
    exact h.owned
  spares := h.spares
  fulfilled := h.fulfilled

/-- A pending call takes the blocks. -/
theorem push (call : PendingCall) (h : Ledger buffer call.held inUse live pending memory)
    (hspares : call.Spares buffer) (hfulfilled : call.Fulfilled memory) :
    Ledger buffer [] inUse live (call :: pending) memory where
  owned := by
    apply h.owned.perm
    rw [List.nil_append, List.flatMap_cons, ← List.append_assoc, ← List.append_assoc]
    exact List.perm_append_comm.append_right _
  spares := List.forall_mem_cons.mpr ⟨hspares, h.spares⟩
  fulfilled := List.forall_mem_cons.mpr ⟨hfulfilled, h.fulfilled⟩

/-- The innermost pending call releases its blocks. -/
theorem pop (h : Ledger buffer [] inUse live (call :: pending) memory) :
    Ledger buffer call.held inUse live pending memory where
  owned := by
    apply h.owned.perm
    rw [List.nil_append, List.flatMap_cons, ← List.append_assoc, ← List.append_assoc]
    exact List.perm_append_comm.append_right _
  spares := fun c hc => h.spares c (List.mem_cons_of_mem _ hc)
  fulfilled := fun c hc => h.fulfilled c (List.mem_cons_of_mem _ hc)

/-- Memory may change outside the outstanding blocks. -/
theorem change (h : Ledger buffer extra inUse live pending memory)
    (hkept : ∀ c ∈ live ++ pending.flatMap PendingCall.held, ∀ a, c.segment.contains a = true →
      memory' a = memory a) : Ledger buffer extra inUse live pending memory' where
  owned := h.owned
  spares := h.spares
  fulfilled := fun call hcall =>
    (h.fulfilled call hcall).of_kept fun c hc => hkept c (mem_outstanding hcall hc)

/-- Libc takes the block of the call and answers. -/
theorem libc {r : AllocRequest} {handed : Option Block}
    (h : Ledger buffer r.old.toList inUse live pending memory)
    (hlibc : LibcCall buffer (live ++ pending.flatMap PendingCall.held) r handed memory memory') :
    Ledger buffer handed.toList inUse live pending memory' := by
  have hrest := h.owned.sublist (List.sublist_append_right r.old.toList _)
  have howned : Owned buffer inUse
      (handed.toList ++ (live ++ pending.flatMap PendingCall.held)) := by
    cases hlibc.answer with
    | calloc hfresh _ => exact hrest.cons hfresh.1 hfresh.2
    | callocFails _ _ => exact hrest
    | realloc _ hfresh _ => exact hrest.cons hfresh.1 hfresh.2
    | reallocFails _ _ => exact h.owned
    | reallocReleases _ => exact hrest
    | free _ => exact hrest
  exact (⟨howned, h.spares, h.fulfilled⟩ : Ledger _ _ _ _ _ _).change hlibc.kept

/-- The program writes into one of its blocks. -/
theorem write (h : Ledger buffer [] inUse live pending memory) {a : Word} (value : BitVec 8)
    (hb : b ∈ live) (ha : b.segment.contains a = true) :
    Ledger buffer [] inUse live pending (Function.update memory a value) where
  owned := h.owned
  spares := h.spares
  fulfilled := by
    intro call hcall
    refine (h.fulfilled call hcall).of_kept fun c hc x hx => Function.update_of_ne ?_ _ _
    have hblocks : (live ++ pending.flatMap PendingCall.held).Pairwise
        fun b c => Apart b.segment c.segment := h.owned.apart
    have hapart := (List.pairwise_append.mp hblocks).2.2 b hb c
      (List.mem_flatMap.mpr ⟨call, hcall, hc⟩)
    rintro rfl
    rw [hapart x ha] at hx
    exact absurd hx (by simp)

/-- The buffer is zeroed and handed out. -/
theorem takeBuffer (h : Ledger buffer [] false live pending memory) :
    Ledger buffer [] true (buffer.toBlock :: live) pending (memsetZero buffer.toBlock memory) := by
  have htaken : Ledger buffer [buffer.toBlock] true live pending memory :=
    ⟨h.owned.take, h.spares, h.fulfilled⟩
  apply (htaken.change fun c hc a ha => ?_).give
  have hclear : buffer.segment.contains a = false := h.owned.apart_buffer c hc a ha
  simp [memsetZero, hclear]

/-- The buffer is given back. -/
theorem giveBack (h : Ledger buffer [b] inUse live pending memory)
    (hstart : b.start = buffer.start) : Ledger buffer [] false live pending memory :=
  ⟨h.owned.giveBack hstart, h.spares, h.fulfilled⟩

/-- What the books say of what can be seen. -/
theorem safe {s : CallocState}
    (h : Ledger buffer [] s.callocBufferInUse s.live s.pending s.memory)
    (hreturned : ∀ nmemb size b, s.event = .returned nmemb size (some b) →
      Fulfils s.memory nmemb size b ∧ b ∈ s.live)
    (hpassed : ∀ old, s.event = .passed old → buffer.is old = false) :
    HandedOutSafely buffer s where
  returned := by
    intro nmemb size b hevent
    obtain ⟨hfulfils, hb⟩ := hreturned nmemb size b hevent
    obtain ⟨before, after, hsplit⟩ := List.append_of_mem (List.mem_append_left
      (s.pending.flatMap PendingCall.held) hb)
    have hperm : s.outstanding.Perm (b :: (before ++ after)) := by
      rw [CallocState.outstanding, hsplit]
      exact List.perm_middle
    exact ⟨hfulfils, _, hperm, (List.pairwise_cons.mp (h.owned.perm hperm).apart).1⟩
  owners := h.owned.owners
  passed := hpassed

end Ledger

/-! ## The steps -/

/-- What libc answers to `calloc` is as its caller wants it. -/
theorem LibcCall.fulfils {buffer : CallocBuffer} {others : List Block} {nmemb size : Word}
    {handed : Option Block} {memory memory' : Bytes}
    (h : LibcCall buffer others (.calloc nmemb size) handed memory memory') :
    ∀ b ∈ handed, Fulfils memory' nmemb size b := by
  intro b hb
  refine ⟨?_, h.zeroed nmemb size rfl b hb⟩
  cases h.answer with
  | calloc _ henough => exact Option.some.inj hb ▸ henough
  | callocFails _ _ => exact absurd hb (by simp)

/-- The invariant: the books are in order, and what can be seen is safe. -/
structure BufferSafe (buffer : CallocBuffer) (s : CallocState) : Prop where
  ledger : Ledger buffer [] s.callocBufferInUse s.live s.pending s.memory
  safe : HandedOutSafely buffer s

namespace BufferSafe

variable {buffer : CallocBuffer} {s s' : CallocState} {r : AllocRequest} {handed : Option Block}
  {rest : List PendingCall}

/-- A step that shows nothing. -/
theorem of_quiet (h : Ledger buffer [] s.callocBufferInUse s.live s.pending s.memory)
    (hquiet : s.event = .quiet) : BufferSafe buffer s where
  ledger := h
  safe := h.safe (by simp [hquiet]) (by simp [hquiet])

/-- A step that passes on the pointer of a call. -/
theorem of_passed (h : Ledger buffer [] s.callocBufferInUse s.live s.pending s.memory)
    (hevent : s.event = r.passed) (hspared : buffer.is r.old = false) : BufferSafe buffer s where
  ledger := h
  safe := by
    apply h.safe
    · intro nmemb size b hb
      rw [hevent] at hb
      cases r <;> simp [AllocRequest.passed] at hb
    · intro old hold
      rw [hevent] at hold
      cases r with
      | calloc nmemb size => simp [AllocRequest.passed] at hold
      | realloc _ _ => exact WrapperEvent.passed.inj hold ▸ hspared
      | free _ => exact WrapperEvent.passed.inj hold ▸ hspared

/-- A step in which `calloc` returns. -/
theorem of_returned (handed : Option Block) {nmemb size : Word}
    (h : Ledger buffer [] s.callocBufferInUse s.live s.pending s.memory)
    (hevent : s.event = .returned nmemb size handed)
    (hfulfilled : ∀ b ∈ handed, Fulfils s.memory nmemb size b ∧ b ∈ s.live) :
    BufferSafe buffer s where
  ledger := h
  safe := by
    apply h.safe
    · intro n m b hb
      rw [hevent] at hb
      obtain ⟨rfl, rfl, rfl⟩ := WrapperEvent.returned.inj hb
      exact hfulfilled b rfl
    · simp [hevent]

/-- A call waits for its lookup. -/
theorem lookUp (h : Ledger buffer r.old.toList s.callocBufferInUse s.live s.pending s.memory)
    (hspares : (PendingCall.lookup r).Spares buffer) : BufferSafe buffer (s.lookUp r) :=
  of_quiet (Ledger.push (.lookup r) h hspares trivial) rfl

/-- A call enters its handler. -/
theorem handle (h : Ledger buffer r.old.toList s.callocBufferInUse s.live s.pending s.memory)
    (hspared : buffer.is r.old = false) : BufferSafe buffer (s.handle r) :=
  of_passed (Ledger.push (.handler r) h hspared trivial) rfl hspared

/-- `calloc`. -/
theorem calloc {nmemb size : Word}
    (h : Ledger buffer [] s.callocBufferInUse s.live s.pending s.memory)
    (hspares : SparesBuffer buffer s (.call (.calloc nmemb size)))
    (hcall : s.calloc buffer nmemb size = some s') : BufferSafe buffer s' := by
  unfold CallocState.calloc at hcall
  split_ifs at hcall with hdlsym hinUse hpasses
  · obtain rfl := Option.some.inj hcall
    rw [Bool.not_eq_true] at hinUse
    rw [hinUse] at h
    refine of_returned (some buffer.toBlock) h.takeBuffer rfl fun b hb => ?_
    obtain rfl := Option.some.inj hb
    have henough : nmemb.toNat * size.toNat ≤ buffer.size.toNat := by
      rw [buffer.length_eq]
      exact hspares hdlsym
    exact ⟨⟨henough, fun a ha => if_pos ha⟩, List.mem_cons_self⟩
  · obtain rfl := Option.some.inj hcall
    exact lookUp (r := .calloc nmemb size) h trivial
  · obtain rfl := Option.some.inj hcall
    exact handle (r := .calloc nmemb size) h rfl

/-- `realloc`. -/
theorem realloc {old : Option Block} {size : Word}
    (h : Ledger buffer old.toList s.callocBufferInUse s.live s.pending s.memory)
    (hspares : SparesBuffer buffer s (.call (.realloc old size))) :
    BufferSafe buffer (s.realloc old size) := by
  unfold CallocState.realloc
  split_ifs with hpasses
  · exact lookUp (r := .realloc old size) h trivial
  · exact handle (r := .realloc old size) h (hspares (Bool.eq_false_of_not_eq_true hpasses))

/-- `free`. -/
theorem free {old : Option Block}
    (h : Ledger buffer old.toList s.callocBufferInUse s.live s.pending s.memory) :
    BufferSafe buffer (s.free buffer old) := by
  unfold CallocState.free
  split_ifs with hbuffer hpasses
  · obtain ⟨b, rfl, hstart⟩ := (Option.any_eq_true _ _).mp hbuffer
    exact of_quiet (h.giveBack (beq_iff_eq.mp hstart)) rfl
  · exact lookUp (r := .free old) h (Bool.eq_false_of_not_eq_true hbuffer)
  · exact handle (r := .free old) h (Bool.eq_false_of_not_eq_true hbuffer)

/-- A wrapper is called. -/
theorem call {live : List Block} (h : BufferSafe buffer s)
    (hspares : SparesBuffer buffer s (.call r)) (hlive : s.live.Perm (r.old.toList ++ live))
    (henter : { s with live := live }.enter buffer r = some s') : BufferSafe buffer s' := by
  have hledger := h.ledger.giveUp hlive
  cases r with
  | calloc nmemb size =>
    have hcalls : Ledger buffer [] s.callocBufferInUse live s.pending s.memory := hledger
    exact calloc (s := { s with live := live }) hcalls hspares henter
  | realloc old size =>
    obtain rfl := Option.some.inj henter
    exact realloc hledger hspares
  | free old =>
    obtain rfl := Option.some.inj henter
    exact free hledger

/-- A call passed on to libc returns. -/
theorem lookupReturns {memory : Bytes} (h : BufferSafe buffer s)
    (hspares : SparesBuffer buffer s .resume) (hpending : s.pending = .lookup r :: rest)
    (hlibc : LibcCall buffer (s.live ++ rest.flatMap PendingCall.held) r handed s.memory memory) :
    BufferSafe buffer (s.lookupReturns r handed rest memory) := by
  have hledger := h.ledger
  have hcall := hledger.spares (.lookup r) (hpending ▸ List.mem_cons_self)
  rw [hpending] at hledger
  have hanswered := (hledger.pop.libc hlibc).give
  cases r with
  | calloc nmemb size =>
    refine of_returned handed hanswered rfl fun b hb => ?_
    exact ⟨hlibc.fulfils b hb, List.mem_append_left _ (Option.mem_toList.mpr hb)⟩
  | realloc old size =>
    exact of_passed (r := .realloc old size) hanswered rfl (hspares old size rest hpending)
  | free old => exact of_passed (r := .free old) hanswered rfl hcall

/-- A handler calls libc. -/
theorem handlerCalls {memory : Bytes} (h : BufferSafe buffer s)
    (hpending : s.pending = .handler r :: rest)
    (hlibc : LibcCall buffer (s.live ++ rest.flatMap PendingCall.held) r handed s.memory memory) :
    BufferSafe buffer (s.handlerCalls r handed rest memory) := by
  have hledger := h.ledger
  have hcall := hledger.spares (.handler r) (hpending ▸ List.mem_cons_self)
  rw [hpending] at hledger
  have hfulfilled : (PendingCall.handled r handed).Fulfilled memory := by
    cases r with
    | calloc nmemb size => exact hlibc.fulfils
    | realloc _ _ => trivial
    | free _ => trivial
  exact of_passed (Ledger.push (.handled r handed) (hledger.pop.libc hlibc) trivial hfulfilled)
    rfl hcall

/-- A handler returns. -/
theorem handlerReturns (h : BufferSafe buffer s)
    (hpending : s.pending = .handled r handed :: rest) :
    BufferSafe buffer (s.handlerReturns r handed rest) := by
  have hledger := h.ledger
  have hfulfilled := hledger.fulfilled (.handled r handed) (hpending ▸ List.mem_cons_self)
  rw [hpending] at hledger
  cases r with
  | calloc nmemb size =>
    exact of_quiet (Ledger.push (.logging nmemb size handed) hledger.pop trivial hfulfilled) rfl
  | realloc _ _ => exact of_quiet hledger.pop.give rfl
  | free _ => exact of_quiet hledger.pop.give rfl

/-- `calloc` returns what its handler got. -/
theorem logReturns {nmemb size : Word} (h : BufferSafe buffer s)
    (hpending : s.pending = .logging nmemb size handed :: rest) :
    BufferSafe buffer (s.logReturns nmemb size handed rest) := by
  have hledger := h.ledger
  have hfulfilled := hledger.fulfilled (.logging nmemb size handed)
    (hpending ▸ List.mem_cons_self)
  rw [hpending] at hledger
  refine of_returned handed hledger.pop.give rfl fun b hb => ?_
  exact ⟨hfulfilled b hb, List.mem_append_left _ (Option.mem_toList.mpr hb)⟩

/-- A step that spares the buffer keeps the invariant. -/
theorem step {label : CallocLabel} (h : BufferSafe buffer s) (hstep : CallocStep buffer s label s')
    (hspares : SparesBuffer buffer s label) : BufferSafe buffer s' := by
  cases hstep with
  | initialized _ => exact of_quiet h.ledger rfl
  | write value hb ha => exact of_quiet (h.ledger.write value hb ha) rfl
  | call hlive henter => exact h.call hspares hlive henter
  | lookupReturns hpending hlibc => exact h.lookupReturns hspares hpending hlibc
  | handlerCalls hpending hlibc => exact h.handlerCalls hpending hlibc
  | handlerReturns hpending => exact h.handlerReturns hpending
  | logReturns hpending => exact h.logReturns hpending

end BufferSafe

/-- A step after which all is safe has spared the buffer. -/
theorem CallocStep.spares {buffer : CallocBuffer} {s s' : CallocState} {label : CallocLabel}
    (hstep : CallocStep buffer s label s') (hsafe : HandedOutSafely buffer s') :
    SparesBuffer buffer s label := by
  cases hstep with
  | initialized _ => trivial
  | write _ _ _ => trivial
  | @call _ r rest hlive henter =>
    cases r with
    | calloc nmemb size =>
      intro hdlsym
      change CallocState.calloc buffer nmemb size { s with live := rest } = some s' at henter
      unfold CallocState.calloc at henter
      rw [if_pos hdlsym] at henter
      split_ifs at henter
      obtain rfl := Option.some.inj henter
      have henough := (hsafe.returned nmemb size buffer.toBlock rfl).1.enough
      rwa [buffer.length_eq] at henough
    | realloc old size =>
      intro hpasses
      obtain rfl := Option.some.inj henter
      apply hsafe.passed old
      have hhandled : { s with live := rest }.passesOn = false := hpasses
      rw [CallocState.realloc, hhandled]
      rfl
    | free _ => trivial
  | lookupReturns hpending _ =>
    intro old size rest hrealloc
    rw [hrealloc] at hpending
    obtain ⟨hcall, -⟩ := List.cons.inj hpending
    obtain rfl := PendingCall.lookup.inj hcall
    exact hsafe.passed old rfl
  | handlerCalls hpending _ => exact fun _ _ _ hrealloc => by simp [hrealloc] at hpending
  | handlerReturns hpending => exact fun _ _ _ hrealloc => by simp [hrealloc] at hpending
  | logReturns hpending => exact fun _ _ _ hrealloc => by simp [hrealloc] at hpending

/-- A thread outside the wrappers that does not own the buffer. -/
structure CallocStart (buffer : CallocBuffer) (s : CallocState) : Prop where
  outside : s.pending = []
  unused : s.callocBufferInUse = false
  apart : s.live.Pairwise fun b c => Apart b.segment c.segment
  clear : ∀ b ∈ s.live, Apart b.segment buffer.segment
  quiet : s.event = .quiet

/-- At the start the books are in order. -/
theorem CallocStart.bufferSafe {buffer : CallocBuffer} {s : CallocState}
    (h : CallocStart buffer s) : BufferSafe buffer s := by
  have hlive : s.live ++ s.pending.flatMap PendingCall.held = s.live := by simp [h.outside]
  refine .of_quiet ⟨?_, by simp [h.outside], by simp [h.outside]⟩ h.quiet
  rw [List.nil_append, hlive]
  refine ⟨h.apart, fun b hb => .inr (h.clear b hb), fun hmem => ?_⟩
  exact absurd (h.clear _ hmem) (Block.not_apart_self _)

/-- In every run, what `calloc` hands out is safe in every state reached if and only if every
`calloc` below a lookup asks for no more than the buffer and `realloc` never passes the buffer
on. -/
theorem calloc_buffer_safe_iff (buffer : CallocBuffer) (s : CallocState)
    (trace : List (CallocLabel × CallocState)) (hstart : CallocStart buffer s)
    (hrun : Run (CallocStep buffer) s trace) :
    Throughout (HandedOutSafely buffer) trace ↔ Guarded (SparesBuffer buffer) s trace :=
  hrun.throughout_iff_guarded (fun _ (h : BufferSafe buffer _) => h.safe)
    (fun _ _ _ h hstep hspares => h.step hstep hspares)
    (fun _ _ _ _ hstep hsafe => hstep.spares hsafe) hstart.bufferSafe

/-! ## Before the library is initialized -/

/-- A buffer of the bytes from `0x600000` on. -/
def lowBuffer : CallocBuffer :=
  ⟨⟨0x600000, 0x100000, "calloc_buffer", false, by decide, by decide, by decide⟩, by decide⟩

/-- A thread before its first call. -/
def firstCall : CallocState := ⟨false, false, false, false, [], [], fun _ => 0, .quiet⟩

/-- The thread looks up `calloc` for its first request, which is for 16 bytes. -/
def firstLookup : CallocState := { firstCall with insideDlsym := true }.lookUp (.calloc 1 16)

/-- Nothing is outstanding at the first call. -/
theorem callocStart_firstCall : CallocStart lowBuffer firstCall where
  outside := rfl
  unused := rfl
  apart := List.Pairwise.nil
  clear := by simp [firstCall]
  quiet := rfl

/-- The lookup asks for 64 bytes and frees them again; then the first request is answered. -/
theorem calloc_buffer_safe_iff_small :
    let handed := firstLookup.takeBuffer lowBuffer 1 64
    let back := { handed with live := [], callocBufferInUse := false, event := .quiet }
    Throughout (HandedOutSafely lowBuffer)
      [(CallocLabel.call (.calloc 1 16), firstLookup), (.call (.calloc 1 64), handed),
        (.call (.free (some lowBuffer.toBlock)), back),
        (.resume, back.lookupReturns (.calloc 1 16) (some mappedBlock) [] back.memory)] := by
  intro handed back
  have hapart : Apart mappedBlock.segment lowBuffer.segment := Apart.of_ordered (.inr (by decide))
  have hlibc : LibcCall lowBuffer (back.live ++ List.flatMap PendingCall.held []) (.calloc 1 16)
      (some mappedBlock) back.memory back.memory := by
    refine ⟨.calloc ⟨hapart, by simp [back]⟩ (by decide), fun _ _ _ _ => rfl, ?_⟩
    intro _ _ _ b _ a _
    simp [back, handed, firstLookup, CallocState.lookUp, firstCall, CallocState.takeBuffer,
      memsetZero]
  apply (calloc_buffer_safe_iff lowBuffer firstCall _ callocStart_firstCall ?_).mpr
  · refine ⟨fun h => absurd h (by decide), fun _ => by decide, trivial, ?_, trivial⟩
    intro old size rest hpending
    exact absurd hpending (by simp [back, handed, firstLookup, CallocState.lookUp, firstCall,
      CallocState.takeBuffer])
  · exact .cons (.call (List.Perm.refl _) rfl) <| .cons (.call (List.Perm.refl _) rfl) <|
      .cons (.call (List.Perm.refl _) rfl) <| .cons (.lookupReturns rfl hlibc) <| .nil _

/-- A lookup that asks for one byte more than the buffer has is given the buffer, and one that
reallocates what it was given passes the buffer to libc. -/
theorem calloc_buffer_handed_out_unsafely :
    let handed := firstLookup.takeBuffer lowBuffer 1 64
    let regrown := { handed with live := [] }.lookUp (.realloc (some lowBuffer.toBlock) 128)
    let short := [(CallocLabel.call (.calloc 1 16), firstLookup),
      (.call (.calloc 1 0x100001), firstLookup.takeBuffer lowBuffer 1 0x100001)]
    let passed := [(CallocLabel.call (.calloc 1 16), firstLookup), (.call (.calloc 1 64), handed),
      (.call (.realloc (some lowBuffer.toBlock) 128), regrown),
      (.resume, regrown.lookupReturns (.realloc (some lowBuffer.toBlock) 128)
        (some lowBuffer.toBlock) [.lookup (.calloc 1 16)] regrown.memory)]
    CallocStart lowBuffer firstCall ∧
      (Run (CallocStep lowBuffer) firstCall short ∧
        ¬ Throughout (HandedOutSafely lowBuffer) short) ∧
      Run (CallocStep lowBuffer) firstCall passed ∧
        ¬ Throughout (HandedOutSafely lowBuffer) passed := by
  intro handed regrown short passed
  refine ⟨callocStart_firstCall, ⟨?_, fun hsafe => ?_⟩, ?_, fun hsafe => ?_⟩
  · exact .cons (.call (List.Perm.refl _) rfl) <| .cons (.call (List.Perm.refl _) rfl) <| .nil _
  · have hlast := hsafe _ (List.getLast_mem (List.cons_ne_nil _ _))
    have henough := (hlast.returned 1 0x100001 lowBuffer.toBlock rfl).1.enough
    exact absurd henough (by decide)
  · have hlibc : LibcCall lowBuffer (regrown.live ++
        List.flatMap PendingCall.held [.lookup (.calloc 1 16)])
        (.realloc (some lowBuffer.toBlock) 128) (some lowBuffer.toBlock) regrown.memory
        regrown.memory :=
      ⟨.reallocFails _ _, fun _ _ _ _ => rfl, fun _ _ hcalloc => by simp at hcalloc⟩
    exact .cons (.call (List.Perm.refl _) rfl) <| .cons (.call (List.Perm.refl _) rfl) <|
      .cons (.call (List.Perm.refl _) rfl) <| .cons (.lookupReturns rfl hlibc) <| .nil _
  · have hlast := hsafe _ (List.getLast_mem (List.cons_ne_nil _ _))
    exact absurd (hlast.passed (some lowBuffer.toBlock) rfl) (by decide)

end Bwap
