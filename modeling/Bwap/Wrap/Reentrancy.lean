import Bwap.Common.Recorded

/-!
# The re-entrancy guard of the wrappers

Each interposed function either passes the call on or runs its handler with the thread's
`inside_unstickymem` set. Whatever wrapped functions a handler, a symbol lookup or a log
message calls in turn, at most one handler is active on a thread, it never locks the segment
list twice, and the flag is down again once the thread is outside the wrappers.
-/

namespace Bwap

open Common

/-- What the wrappers keep for a thread, and how many wrapper calls and handlers are active on it
and how often it holds `_segments_lock`. -/
structure WrapperState where
  isInitialized : Bool
  insideUnstickymem : Bool
  insideDlsym : Bool
  callocBufferInUse : Bool
  calls : ℕ
  handlers : ℕ
  locks : ℕ
deriving DecidableEq, Repr

namespace WrapperState

/-- A thread outside the wrappers, once the library is initialized. -/
def outside (callocBufferInUse : Bool) : WrapperState :=
  ⟨true, false, false, callocBufferInUse, 0, 0, 0⟩

/-- The test with which a wrapper passes the call on. -/
def passesOn (s : WrapperState) : Bool := !s.isInitialized || s.insideUnstickymem

/-- Set or clear `inside_unstickymem`. -/
def setInside (value : Bool) (s : WrapperState) : WrapperState :=
  { s with insideUnstickymem := value }

/-- Set or clear `inside_dlsym`. -/
def setInsideDlsym (value : Bool) (s : WrapperState) : WrapperState :=
  { s with insideDlsym := value }

/-- Take or give back `calloc_buffer`. -/
def setBufferInUse (value : Bool) (s : WrapperState) : WrapperState :=
  { s with callocBufferInUse := value }

/-- A wrapper is called. -/
def enterCall (s : WrapperState) : WrapperState := { s with calls := s.calls + 1 }

/-- A wrapper returns. -/
def leaveCall (s : WrapperState) : WrapperState := { s with calls := s.calls - 1 }

/-- A handler is entered. -/
def enterHandler (s : WrapperState) : WrapperState := { s with handlers := s.handlers + 1 }

/-- A handler returns. -/
def leaveHandler (s : WrapperState) : WrapperState := { s with handlers := s.handlers - 1 }

/-- The thread locks `_segments_lock`. A count of two is an attempt to lock it twice. -/
def lock (s : WrapperState) : WrapperState := { s with locks := s.locks + 1 }

/-- The thread unlocks `_segments_lock`. -/
def unlock (s : WrapperState) : WrapperState := { s with locks := s.locks - 1 }

end WrapperState

/-- The interposed functions. -/
inductive WrappedFunction
  | malloc
  | calloc
  | realloc
  | reallocarray
  | free
  | posixMemalign
  | mmap
  | munmap
  | mremap
  | brk
  | sbrk
  | mbind
deriving DecidableEq, Repr

mutual

/-- A sequence of wrapper calls, each with the calls made below it: by the symbol lookup and the
wrapped function if the call is passed on, by the handler and the log message if it is not.
`onBuffer` tells whether `free` is given the buffer of `calloc`. -/
inductive WrapperCalls
  | nil
  | call (function : WrappedFunction) (onBuffer : Bool) (lookup : WrapperCalls)
      (handler : HandlerBody) (log rest : WrapperCalls)

/-- The body of a `handle_*`: wrapper calls outside and inside of its locked sections. -/
inductive HandlerBody
  | nil
  | unlocked (calls : WrapperCalls) (rest : HandlerBody)
  | locked (calls : WrapperCalls) (rest : HandlerBody)

end

namespace Wrapper

open Recorded WrapperState

/-- The call of a handler. -/
def handle (handler : Recorded WrapperState) : Recorded WrapperState :=
  inOrder [update enterHandler, handler, update leaveHandler]

/-- A wrapper that clears the flag after its log message. -/
def logsInside (lookup handler log : Recorded WrapperState) : Recorded WrapperState :=
  branch passesOn lookup
    (inOrder [update (setInside true), handle handler, log, update (setInside false)])

/-- A wrapper that clears the flag before its log message. -/
def logsOutside (lookup handler log : Recorded WrapperState) : Recorded WrapperState :=
  branch passesOn lookup
    (inOrder [update (setInside true), handle handler, update (setInside false), log])

/-- `malloc`. -/
def malloc (lookup handler log : Recorded WrapperState) : Recorded WrapperState :=
  logsOutside lookup handler log

/-- `calloc`: while `dlsym` runs it hands out its buffer, once. -/
def calloc (lookup handler log : Recorded WrapperState) : Recorded WrapperState :=
  branch insideDlsym (branch callocBufferInUse abort (update (setBufferInUse true)))
    (logsOutside (inOrder [update (setInsideDlsym true), lookup, update (setInsideDlsym false)])
      handler log)

/-- `realloc`. -/
def realloc (lookup handler log : Recorded WrapperState) : Recorded WrapperState :=
  logsInside lookup handler log

/-- `reallocarray`. -/
def reallocarray (lookup handler log : Recorded WrapperState) : Recorded WrapperState :=
  logsInside lookup handler log

/-- `free`, which takes the buffer of `calloc` back before it looks at the flag. -/
def free (onBuffer : Bool) (lookup handler log : Recorded WrapperState) : Recorded WrapperState :=
  if onBuffer then update (setBufferInUse false) else logsInside lookup handler log

/-- `posix_memalign`. -/
def posixMemalign (lookup handler log : Recorded WrapperState) : Recorded WrapperState :=
  logsInside lookup handler log

/-- `mmap`. -/
def mmap (lookup handler log : Recorded WrapperState) : Recorded WrapperState :=
  logsInside lookup handler log

/-- `munmap`. -/
def munmap (lookup handler log : Recorded WrapperState) : Recorded WrapperState :=
  logsInside lookup handler log

/-- `mremap` reports that it is not implemented and ends the process. -/
def mremap (log : Recorded WrapperState) : Recorded WrapperState := log.andThen abort

/-- `brk`, whose handler ends the process. -/
def brk (lookup handler log : Recorded WrapperState) : Recorded WrapperState :=
  logsInside lookup (handler.andThen abort) log

/-- `sbrk`, whose handler ends the process. -/
def sbrk (lookup handler log : Recorded WrapperState) : Recorded WrapperState :=
  logsInside lookup (handler.andThen abort) log

/-- `mbind`, whose handler ends the process. -/
def mbind (lookup handler log : Recorded WrapperState) : Recorded WrapperState :=
  logsInside lookup (handler.andThen abort) log

/-- The body of the wrapper of a function. -/
def body (onBuffer : Bool) (lookup handler log : Recorded WrapperState) :
    WrappedFunction → Recorded WrapperState
  | .malloc => malloc lookup handler log
  | .calloc => calloc lookup handler log
  | .realloc => realloc lookup handler log
  | .reallocarray => reallocarray lookup handler log
  | .free => free onBuffer lookup handler log
  | .posixMemalign => posixMemalign lookup handler log
  | .mmap => mmap lookup handler log
  | .munmap => munmap lookup handler log
  | .mremap => mremap log
  | .brk => brk lookup handler log
  | .sbrk => sbrk lookup handler log
  | .mbind => mbind lookup handler log

mutual

/-- Run a sequence of wrapper calls. -/
def exec : WrapperCalls → Recorded WrapperState
  | .nil => done
  | .call function onBuffer lookup handler log rest =>
    inOrder [update enterCall,
      body onBuffer (exec lookup) (execHandler handler) (exec log) function,
      update leaveCall, exec rest]

/-- Run the body of a handler. -/
def execHandler : HandlerBody → Recorded WrapperState
  | .nil => done
  | .unlocked calls rest => inOrder [exec calls, execHandler rest]
  | .locked calls rest => inOrder [update lock, exec calls, update unlock, execHandler rest]

end

/-- At most one handler is active and the lock is held at most once; the flag is set while a handler
is active, and down outside the wrappers. -/
structure WellGuarded (s : WrapperState) : Prop where
  oneHandler : s.handlers ≤ 1
  oneLock : s.locks ≤ 1
  inside : 0 < s.handlers → s.insideUnstickymem = true
  outside : s.calls = 0 → s.insideUnstickymem = false

/-- A thread of the initialized library with its flag and its counters. -/
structure Standing (inside : Bool) (handlers locks calls : ℕ) (s : WrapperState) : Prop where
  isInitialized : s.isInitialized = true
  insideUnstickymem : s.insideUnstickymem = inside
  handlers : s.handlers = handlers
  locks : s.locks = locks
  calls : s.calls = calls

namespace Standing

variable {inside : Bool} {handlers locks calls : ℕ} {s : WrapperState}

/-- Inside the library, one handler and one lock are allowed. -/
theorem wellGuarded_inside (h : Standing true handlers locks calls s) (hhandlers : handlers ≤ 1)
    (hlocks : locks ≤ 1) (hcalls : 0 < calls) : WellGuarded s where
  oneHandler := h.handlers ▸ hhandlers
  oneLock := h.locks ▸ hlocks
  inside := fun _ => h.insideUnstickymem
  outside := fun hnone => absurd (h.calls.symm.trans hnone) (by omega)

/-- Outside the library no handler is active. -/
theorem wellGuarded_outside (h : Standing false 0 0 calls s) : WellGuarded s where
  oneHandler := by simp [h.handlers]
  oneLock := by simp [h.locks]
  inside := fun hactive => absurd h.handlers (by omega)
  outside := fun _ => h.insideUnstickymem

end Standing

section Inside

/-! ## With the flag set -/

variable {handlers locks calls : ℕ} {lookup handler log : Recorded WrapperState}

/-- The test of a wrapper succeeds inside the library. -/
theorem passesOn_inside (s : WrapperState) (hs : Standing true handlers locks calls s) :
    passesOn s = true := by
  simp [passesOn, hs.insideUnstickymem]

/-- A change made inside the library. -/
theorem update_inside {f : WrapperState → WrapperState} {handlers' locks' calls' : ℕ}
    {pre : WrapperState → Prop} (hf : ∀ s, pre s → Standing true handlers' locks' calls' (f s))
    (hhandlers : handlers' ≤ 1) (hlocks : locks' ≤ 1) (hcalls : 0 < calls') :
    Triple pre (update f) WellGuarded (Standing true handlers' locks' calls') :=
  Triple.update (fun s hs => (hf s hs).wellGuarded_inside hhandlers hlocks hcalls) hf

/-- A wrapper called inside the library passes the call on: it changes neither the flag nor a
counter. -/
theorem body_inside (hhandlers : handlers ≤ 1) (hlocks : locks ≤ 1) (hcalls : 0 < calls)
    (hlookup : Triple (Standing true handlers locks calls) lookup WellGuarded
      (Standing true handlers locks calls))
    (hlog : Triple (Standing true handlers locks calls) log WellGuarded
      (Standing true handlers locks calls))
    (function : WrappedFunction) (onBuffer : Bool) :
    Triple (Standing true handlers locks calls) (body onBuffer lookup handler log function)
      WellGuarded (Standing true handlers locks calls) := by
  have hbuffer (value : Bool) : Triple (Standing true handlers locks calls)
      (update (setBufferInUse value)) WellGuarded (Standing true handlers locks calls) :=
    update_inside (fun s hs => { hs with }) hhandlers hlocks hcalls
  have hdlsym (value : Bool) : Triple (Standing true handlers locks calls)
      (update (setInsideDlsym value)) WellGuarded (Standing true handlers locks calls) :=
    update_inside (fun s hs => { hs with }) hhandlers hlocks hcalls
  cases function with
  | calloc =>
    apply Triple.branch
    · exact (Triple.abort _ _ _).branch (hbuffer true)
    · apply Triple.branch_true passesOn_inside
      exact (hdlsym true).inOrder_cons (hlookup.inOrder_cons (hdlsym false).inOrder_singleton)
  | free =>
    cases onBuffer with
    | true => exact hbuffer false
    | false => exact Triple.branch_true passesOn_inside hlookup
  | mremap => exact hlog.andThen (Triple.abort _ _ _)
  | _ => exact Triple.branch_true passesOn_inside hlookup

/-- Wrapper calls made inside the library change neither the flag nor a counter. -/
theorem exec_inside (hhandlers : handlers ≤ 1) (hlocks : locks ≤ 1) :
    ∀ (nested : WrapperCalls) (calls : ℕ), 0 < calls →
      Triple (Standing true handlers locks calls) (exec nested) WellGuarded
        (Standing true handlers locks calls)
  | .nil, calls, _ => by
    unfold exec
    exact Triple.done _ _
  | .call function onBuffer lookup handler log rest, calls, hcalls => by
    have henter : Triple (Standing true handlers locks calls) (update enterCall) WellGuarded
        (Standing true handlers locks (calls + 1)) :=
      update_inside (fun s hs => { hs with calls := by simp [enterCall, hs.calls] })
        hhandlers hlocks (Nat.succ_pos calls)
    have hbody : Triple (Standing true handlers locks (calls + 1))
        (body onBuffer (exec lookup) (execHandler handler) (exec log) function) WellGuarded
        (Standing true handlers locks (calls + 1)) :=
      body_inside hhandlers hlocks (Nat.succ_pos calls)
        (exec_inside hhandlers hlocks lookup _ (Nat.succ_pos calls))
        (exec_inside hhandlers hlocks log _ (Nat.succ_pos calls)) function onBuffer
    have hleave : Triple (Standing true handlers locks (calls + 1)) (update leaveCall) WellGuarded
        (Standing true handlers locks calls) :=
      update_inside (fun s hs => { hs with calls := by simp [leaveCall, hs.calls] })
        hhandlers hlocks hcalls
    unfold exec
    exact henter.inOrder_cons (hbody.inOrder_cons (hleave.inOrder_cons
      (exec_inside hhandlers hlocks rest calls hcalls).inOrder_singleton))

end Inside

section Outside

/-! ## With the flag down -/

variable {calls : ℕ} {lookup handler log : Recorded WrapperState}

/-- A handler locks the list for one section after the other. -/
theorem execHandler_inside (hcalls : 0 < calls) : ∀ handler : HandlerBody,
    Triple (Standing true 1 0 calls) (execHandler handler) WellGuarded (Standing true 1 0 calls)
  | .nil => by
    unfold execHandler
    exact Triple.done _ _
  | .unlocked nested rest => by
    have hnested := exec_inside (Nat.le_refl 1) (Nat.zero_le 1) nested calls hcalls
    unfold execHandler
    exact hnested.inOrder_cons (execHandler_inside hcalls rest).inOrder_singleton
  | .locked nested rest => by
    have hlock : Triple (Standing true 1 0 calls) (update lock) WellGuarded
        (Standing true 1 1 calls) :=
      update_inside (fun s hs => { hs with locks := by simp [lock, hs.locks] })
        (Nat.le_refl 1) (Nat.le_refl 1) hcalls
    have hnested := exec_inside (Nat.le_refl 1) (Nat.le_refl 1) nested calls hcalls
    have hunlock : Triple (Standing true 1 1 calls) (update unlock) WellGuarded
        (Standing true 1 0 calls) :=
      update_inside (fun s hs => { hs with locks := by simp [unlock, hs.locks] })
        (Nat.le_refl 1) (Nat.zero_le 1) hcalls
    unfold execHandler
    exact hlock.inOrder_cons (hnested.inOrder_cons (hunlock.inOrder_cons
      (execHandler_inside hcalls rest).inOrder_singleton))

/-- The test of a wrapper fails outside the library. -/
theorem passesOn_outside (s : WrapperState) (hs : Standing false 0 0 calls s) :
    passesOn s = false := by
  simp [passesOn, hs.isInitialized, hs.insideUnstickymem]

/-- A change that leads outside the library. -/
theorem update_outside {f : WrapperState → WrapperState} {pre : WrapperState → Prop}
    (hf : ∀ s, pre s → Standing false 0 0 calls (f s)) :
    Triple pre (update f) WellGuarded (Standing false 0 0 calls) :=
  Triple.update (fun s hs => (hf s hs).wellGuarded_outside) hf

/-- The flag is raised before a handler is entered. -/
theorem raise (hcalls : 0 < calls) : Triple (Standing false 0 0 calls) (update (setInside true))
    WellGuarded (Standing true 0 0 calls) :=
  update_inside (fun _ hs => { hs with insideUnstickymem := rfl }) (Nat.zero_le 1)
    (Nat.zero_le 1) hcalls

/-- The flag is cleared after the handler returned. -/
theorem clear : Triple (Standing true 0 0 calls) (update (setInside false)) WellGuarded
    (Standing false 0 0 calls) :=
  update_outside fun _ hs => { hs with insideUnstickymem := rfl }

/-- A handler that is entered with the flag set is the only one. -/
theorem handle_once (hcalls : 0 < calls) (hhandler : Triple (Standing true 1 0 calls) handler
      WellGuarded (Standing true 1 0 calls)) :
    Triple (Standing true 0 0 calls) (handle handler) WellGuarded (Standing true 0 0 calls) := by
  have henter : Triple (Standing true 0 0 calls) (update enterHandler) WellGuarded
      (Standing true 1 0 calls) :=
    update_inside (fun s hs => { hs with handlers := by simp [enterHandler, hs.handlers] })
      (Nat.le_refl 1) (Nat.zero_le 1) hcalls
  have hleave : Triple (Standing true 1 0 calls) (update leaveHandler) WellGuarded
      (Standing true 0 0 calls) :=
    update_inside (fun s hs => { hs with handlers := by simp [leaveHandler, hs.handlers] })
      (Nat.zero_le 1) (Nat.zero_le 1) hcalls
  exact henter.inOrder_cons (hhandler.inOrder_cons hleave.inOrder_singleton)

/-- A wrapper that logs before it clears the flag. -/
theorem logsInside_outside (hcalls : 0 < calls)
    (hhandler : Triple (Standing true 1 0 calls) handler WellGuarded (Standing true 1 0 calls))
    (hlog : Triple (Standing true 0 0 calls) log WellGuarded (Standing true 0 0 calls)) :
    Triple (Standing false 0 0 calls) (logsInside lookup handler log) WellGuarded
      (Standing false 0 0 calls) := by
  apply Triple.branch_false passesOn_outside
  exact (raise hcalls).inOrder_cons ((handle_once hcalls hhandler).inOrder_cons
    (hlog.inOrder_cons clear.inOrder_singleton))

/-- A wrapper that logs once the flag is down. -/
theorem logsOutside_outside (hcalls : 0 < calls)
    (hhandler : Triple (Standing true 1 0 calls) handler WellGuarded (Standing true 1 0 calls))
    (hlog : Triple (Standing false 0 0 calls) log WellGuarded (Standing false 0 0 calls)) :
    Triple (Standing false 0 0 calls) (logsOutside lookup handler log) WellGuarded
      (Standing false 0 0 calls) := by
  apply Triple.branch_false passesOn_outside
  exact (raise hcalls).inOrder_cons ((handle_once hcalls hhandler).inOrder_cons
    (clear.inOrder_cons hlog.inOrder_singleton))

/-- A wrapper called outside the library leaves it again. -/
theorem body_outside (hcalls : 0 < calls)
    (hhandler : Triple (Standing true 1 0 calls) handler WellGuarded (Standing true 1 0 calls))
    (hinside : Triple (Standing true 0 0 calls) log WellGuarded (Standing true 0 0 calls))
    (houtside : Triple (Standing false 0 0 calls) log WellGuarded (Standing false 0 0 calls))
    (function : WrappedFunction) (onBuffer : Bool) :
    Triple (Standing false 0 0 calls) (body onBuffer lookup handler log function) WellGuarded
      (Standing false 0 0 calls) := by
  have hbuffer (value : Bool) : Triple (Standing false 0 0 calls)
      (update (setBufferInUse value)) WellGuarded (Standing false 0 0 calls) :=
    update_outside fun s hs => { hs with }
  have hdies : Triple (Standing true 1 0 calls) (handler.andThen abort) WellGuarded
      (Standing true 1 0 calls) := hhandler.andThen (Triple.abort _ _ _)
  cases function with
  | malloc => exact logsOutside_outside hcalls hhandler houtside
  | calloc =>
    apply Triple.branch
    · exact (Triple.abort _ _ _).branch (hbuffer true)
    · exact logsOutside_outside hcalls hhandler houtside
  | free =>
    cases onBuffer with
    | true => exact hbuffer false
    | false => exact logsInside_outside hcalls hhandler hinside
  | mremap => exact houtside.andThen (Triple.abort _ _ _)
  | brk => exact logsInside_outside hcalls hdies hinside
  | sbrk => exact logsInside_outside hcalls hdies hinside
  | mbind => exact logsInside_outside hcalls hdies hinside
  | _ => exact logsInside_outside hcalls hhandler hinside

/-- Wrapper calls made outside the library leave it again. -/
theorem exec_outside : ∀ (made : WrapperCalls) (calls : ℕ),
    Triple (Standing false 0 0 calls) (exec made) WellGuarded (Standing false 0 0 calls)
  | .nil, calls => by
    unfold exec
    exact Triple.done _ _
  | .call function onBuffer lookup handler log rest, calls => by
    have henter : Triple (Standing false 0 0 calls) (update enterCall) WellGuarded
        (Standing false 0 0 (calls + 1)) :=
      update_outside fun s hs => { hs with calls := by simp [enterCall, hs.calls] }
    have hbody : Triple (Standing false 0 0 (calls + 1))
        (body onBuffer (exec lookup) (execHandler handler) (exec log) function) WellGuarded
        (Standing false 0 0 (calls + 1)) :=
      body_outside (Nat.succ_pos calls) (execHandler_inside (Nat.succ_pos calls) handler)
        (exec_inside (Nat.zero_le 1) (Nat.zero_le 1) log _ (Nat.succ_pos calls))
        (exec_outside log _) function onBuffer
    have hleave : Triple (Standing false 0 0 (calls + 1)) (update leaveCall) WellGuarded
        (Standing false 0 0 calls) :=
      update_outside fun s hs => { hs with calls := by simp [leaveCall, hs.calls] }
    unfold exec
    exact henter.inOrder_cons (hbody.inOrder_cons (hleave.inOrder_cons
      (exec_outside rest calls).inOrder_singleton))

end Outside

/-- Whatever a thread of the initialized library calls, and whatever handlers, symbol lookups and
log messages call in turn: in every state it passes through at most one handler is active, the
lock is held at most once, the flag is set while a handler is active and down outside the
wrappers, and so it ends. -/
theorem wrappers_wellGuarded (callocBufferInUse : Bool) (made : WrapperCalls) :
    (∀ s ∈ (exec made (outside callocBufferInUse)).1, WellGuarded s) ∧
      ∀ s, (exec made (outside callocBufferInUse)).2 = some s → Standing false 0 0 0 s :=
  exec_outside made 0 (outside callocBufferInUse) ⟨rfl, rfl, rfl, rfl, rfl⟩

/-- A list node allocated under the lock is passed on. -/
example :
    let node := WrapperCalls.call .malloc false .nil .nil .nil .nil
    (exec (.call .free false .nil (.locked node .nil) .nil .nil) (outside false)).1.map
      (fun s => (s.calls, s.handlers, s.locks)) =
    [(1, 0, 0), (1, 0, 0), (1, 1, 0), (1, 1, 1), (2, 1, 1), (1, 1, 1), (1, 1, 0), (1, 0, 0),
      (1, 0, 0), (0, 0, 0)] := by
  decide

end Wrapper

end Bwap
