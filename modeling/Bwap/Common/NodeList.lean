import Mathlib.Data.List.Basic
import Mathlib.Data.List.Perm.Basic

/-!
# Lists whose nodes keep their identity

A doubly linked list as a program holds it: an element is reached through the handle of
its node, the handle stays valid while other nodes come and go, and it is dead once its
node is removed. Nodes are only added at the back, so a node's handle is its insertion
number and the handles increase along the list. Handles are never reused.
-/

namespace Common

variable {α : Type*}

/-- A list of nodes in insertion order, each under a handle of its own. -/
structure NodeList (α : Type*) where
  nodes : List (ℕ × α)
  fresh : ℕ
  ordered : nodes.Pairwise (fun a b => a.1 < b.1)
  bounded : ∀ node ∈ nodes, node.1 < fresh

namespace NodeList

/-- The empty list, before any insertion. -/
def empty : NodeList α := ⟨[], 0, List.Pairwise.nil, by simp⟩

/-- The handles of the nodes still in the list, in order. -/
def handles (l : NodeList α) : List ℕ := l.nodes.map Prod.fst

/-- The elements whose node has a selected handle, in order. -/
def valuesWhere (select : ℕ → Bool) (l : NodeList α) : List α :=
  (l.nodes.filter fun node => select node.1).map Prod.snd

/-- All elements, in order. -/
def values (l : NodeList α) : List α := l.nodes.map Prod.snd

/-- Follow a handle to its element; a dead handle leads nowhere. -/
def get? (l : NodeList α) (handle : ℕ) : Option α :=
  (l.nodes.find? fun node => node.1 == handle).map Prod.snd

/-- Append an element under a new handle. -/
def pushBack (l : NodeList α) (a : α) : NodeList α where
  nodes := l.nodes ++ [(l.fresh, a)]
  fresh := l.fresh + 1
  ordered := by
    rw [List.pairwise_append]
    refine ⟨l.ordered, List.pairwise_singleton _ _, fun node hnode last hlast => ?_⟩
    rw [List.mem_singleton.mp hlast]
    exact l.bounded node hnode
  bounded := by
    intro node hnode
    rcases List.mem_append.mp hnode with hold | hnew
    · exact Nat.lt_succ_of_lt (l.bounded node hold)
    · rw [List.mem_singleton.mp hnew]
      exact Nat.lt_succ_self _

/-- Remove every node whose element satisfies the predicate. -/
def removeIf (l : NodeList α) (p : α → Bool) : NodeList α where
  nodes := l.nodes.filter fun node => !p node.2
  fresh := l.fresh
  ordered := l.ordered.filter _
  bounded := fun node hnode => l.bounded node (List.mem_filter.mp hnode).1

/-- Overwrite the element a handle leads to. -/
def modify (l : NodeList α) (handle : ℕ) (f : α → α) : NodeList α where
  nodes := l.nodes.map fun node => if node.1 = handle then (node.1, f node.2) else node
  fresh := l.fresh
  ordered := by
    rw [List.pairwise_map]
    refine l.ordered.imp fun {a b} hab => ?_
    split_ifs <;> exact hab
  bounded := by
    intro node hnode
    obtain ⟨old, hold, rfl⟩ := List.mem_map.mp hnode
    have hbound := l.bounded old hold
    split_ifs <;> exact hbound

/-- The handle that follows a given one in the list. -/
def next? (l : NodeList α) (handle : ℕ) : Option ℕ :=
  ((l.nodes.dropWhile fun node => node.1 != handle).tail.head?).map Prod.fst

/-- The handle of the first node. -/
def first? (l : NodeList α) : Option ℕ := l.nodes.head?.map Prod.fst

/-! ## Following handles -/

/-- A handle leads to an element exactly when the node is in the list. -/
theorem get?_eq_some_iff (l : NodeList α) (handle : ℕ) (a : α) :
    l.get? handle = some a ↔ (handle, a) ∈ l.nodes := by
  have haux : ∀ nodes : List (ℕ × α), nodes.Pairwise (fun a b => a.1 < b.1) →
      ((nodes.find? fun node => node.1 == handle).map Prod.snd = some a ↔
        (handle, a) ∈ nodes) := by
    intro nodes hordered
    induction nodes with
    | nil => simp
    | cons node rest ih =>
      obtain ⟨hhead, htail⟩ := List.pairwise_cons.mp hordered
      by_cases hnode : node.1 = handle
      · have hnot : (handle, a) ∉ rest := fun hmem =>
          absurd (hhead _ hmem) (by simp [hnode])
        rw [List.find?_cons_of_pos (by simpa using hnode)]
        simp [hnot, Prod.ext_iff, hnode, eq_comm]
      · rw [List.find?_cons_of_neg (by simpa using hnode), ih htail]
        simp [Prod.ext_iff, Ne.symm hnode]
  exact haux l.nodes l.ordered

/-- A handle is live exactly when it leads somewhere. -/
theorem mem_handles_iff (l : NodeList α) (handle : ℕ) :
    handle ∈ l.handles ↔ ∃ a, l.get? handle = some a := by
  simp only [handles, List.mem_map, get?_eq_some_iff]
  constructor
  · rintro ⟨⟨_, a⟩, hnode, rfl⟩
    exact ⟨a, hnode⟩
  · rintro ⟨a, hnode⟩
    exact ⟨(handle, a), hnode, rfl⟩

/-- Live handles are older than the next insertion. -/
theorem lt_fresh_of_mem (l : NodeList α) {handle : ℕ} (h : handle ∈ l.handles) :
    handle < l.fresh := by
  obtain ⟨node, hnode, rfl⟩ := List.mem_map.mp h
  exact l.bounded node hnode

/-! ## Appending -/

@[simp] theorem handles_pushBack (l : NodeList α) (a : α) :
    (l.pushBack a).handles = l.handles ++ [l.fresh] := by
  simp [handles, pushBack]

/-- An appended element is selected exactly when its new handle is. -/
theorem valuesWhere_pushBack (select : ℕ → Bool) (l : NodeList α) (a : α) :
    (l.pushBack a).valuesWhere select =
      l.valuesWhere select ++ if select l.fresh then [a] else [] := by
  simp only [valuesWhere, pushBack, List.filter_append, List.map_append]
  cases hselect : select l.fresh <;> simp [hselect]

/-- Appending leaves every live handle's element alone. -/
theorem get?_pushBack_of_lt (l : NodeList α) (a : α) {handle : ℕ} (h : handle < l.fresh) :
    (l.pushBack a).get? handle = l.get? handle := by
  apply Option.ext
  intro b
  simp only [get?_eq_some_iff, pushBack, List.mem_append, List.mem_singleton,
    Prod.mk.injEq, or_iff_left_iff_imp]
  intro heq
  omega

/-- The new handle leads to the appended element. -/
@[simp] theorem get?_pushBack_fresh (l : NodeList α) (a : α) :
    (l.pushBack a).get? l.fresh = some a := by
  rw [get?_eq_some_iff]
  simp [pushBack]

/-! ## Removing -/

/-- A node survives a removal exactly when its element does not satisfy the predicate. -/
theorem get?_removeIf_eq_some_iff (l : NodeList α) (p : α → Bool) (handle : ℕ) (a : α) :
    (l.removeIf p).get? handle = some a ↔ l.get? handle = some a ∧ p a = false := by
  simp [get?_eq_some_iff, removeIf]

/-- A live handle survives a removal exactly when its element does. -/
theorem mem_handles_removeIf_iff (l : NodeList α) (p : α → Bool) {handle : ℕ} {a : α}
    (h : l.get? handle = some a) : handle ∈ (l.removeIf p).handles ↔ p a = false := by
  rw [mem_handles_iff]
  simp only [get?_removeIf_eq_some_iff, h, Option.some.injEq]
  exact ⟨fun ⟨_, hb, hp⟩ => hb ▸ hp, fun hp => ⟨a, rfl, hp⟩⟩

/-- No handle comes to life by a removal. -/
theorem mem_handles_of_mem_removeIf (l : NodeList α) (p : α → Bool) {handle : ℕ}
    (h : handle ∈ (l.removeIf p).handles) : handle ∈ l.handles := by
  obtain ⟨a, ha⟩ := (mem_handles_iff _ _).mp h
  exact (mem_handles_iff _ _).mpr ⟨a, ((get?_removeIf_eq_some_iff _ _ _ _).mp ha).1⟩

/-- Removal filters any selection of the elements. -/
@[simp] theorem valuesWhere_removeIf (select : ℕ → Bool) (l : NodeList α) (p : α → Bool) :
    (l.removeIf p).valuesWhere select = (l.valuesWhere select).filter fun a => !p a := by
  simp only [valuesWhere, removeIf, List.filter_map, List.filter_filter]
  congr 1
  exact List.filter_congr fun node _ => by simp [Bool.and_comm]

/-- Nothing is removed when no element satisfies the predicate. -/
theorem removeIf_eq_self (l : NodeList α) (p : α → Bool) (h : ∀ a ∈ l.values, p a = false) :
    l.removeIf p = l := by
  obtain ⟨nodes, fresh, ordered, bounded⟩ := l
  simp only [removeIf, mk.injEq, and_true]
  refine List.filter_eq_self.mpr fun node hnode => ?_
  rw [h node.2 (List.mem_map_of_mem hnode)]
  rfl

/-! ## Overwriting one element -/

@[simp] theorem handles_modify (l : NodeList α) (handle : ℕ) (f : α → α) :
    (l.modify handle f).handles = l.handles := by
  simp only [handles, modify, List.map_map]
  refine List.map_congr_left fun node _ => ?_
  simp only [Function.comp]
  split_ifs <;> rfl

/-- The overwritten node holds the new element. -/
theorem get?_modify_self (l : NodeList α) {handle : ℕ} {a : α} (f : α → α)
    (h : l.get? handle = some a) : (l.modify handle f).get? handle = some (f a) := by
  rw [get?_eq_some_iff] at h ⊢
  exact List.mem_map.mpr ⟨(handle, a), h, by simp⟩

/-- Every other node keeps its element. -/
theorem get?_modify_of_ne (l : NodeList α) {handle other : ℕ} (f : α → α)
    (hne : other ≠ handle) : (l.modify handle f).get? other = l.get? other := by
  apply Option.ext
  intro a
  simp only [get?_eq_some_iff, modify, List.mem_map]
  constructor
  · rintro ⟨node, hnode, heq⟩
    split_ifs at heq with hhandle
    · exact absurd (congrArg Prod.fst heq).symm (by simpa [hhandle] using hne)
    · exact heq ▸ hnode
  · intro hmem
    exact ⟨(other, a), hmem, by simp [hne]⟩

/-- A selection that leaves the overwritten node out does not see the change. -/
theorem valuesWhere_modify (select : ℕ → Bool) (l : NodeList α) (handle : ℕ) (f : α → α)
    (h : select handle = false) :
    (l.modify handle f).valuesWhere select = l.valuesWhere select := by
  simp only [valuesWhere, modify, List.filter_map, List.map_map]
  have hfilter : (l.nodes.filter ((fun node => select node.1) ∘ fun node : ℕ × α =>
      if node.1 = handle then (node.1, f node.2) else node)) =
        l.nodes.filter fun node => select node.1 :=
    List.filter_congr fun node _ => by
      simp only [Function.comp]
      split_ifs <;> rfl
  rw [hfilter]
  refine List.map_congr_left fun node hnode => ?_
  have hselect := (List.mem_filter.mp hnode).2
  have hne : node.1 ≠ handle := fun heq => by simp [heq, h] at hselect
  simp [hne]

/-- Overwriting an element by itself, or a dead handle's by anything, changes nothing. -/
theorem modify_eq_self (l : NodeList α) {handle : ℕ} (f : α → α)
    (hfix : ∀ a, l.get? handle = some a → f a = a) : l.modify handle f = l := by
  have hnodes : (l.modify handle f).nodes = l.nodes := by
    refine (List.map_congr_left fun node hnode => ?_).trans (List.map_id _)
    split_ifs with hhandle
    · have hnode' : l.get? handle = some node.2 := by
        rw [get?_eq_some_iff, ← hhandle]
        exact hnode
      rw [hfix node.2 hnode']
      rfl
    · rfl
  obtain ⟨nodes, fresh, ordered, bounded⟩ := l
  simp only [modify, mk.injEq, and_true] at hnodes ⊢
  exact hnodes

/-- The element under a live handle and the elements under all other handles are all elements. -/
theorem values_perm (l : NodeList α) {handle : ℕ} {a : α} (h : l.get? handle = some a) :
    l.values.Perm (a :: l.valuesWhere fun node => node != handle) := by
  have haux : ∀ nodes : List (ℕ × α), nodes.Pairwise (fun a b => a.1 < b.1) →
      (handle, a) ∈ nodes → (nodes.map Prod.snd).Perm
        (a :: (nodes.filter fun node => node.1 != handle).map Prod.snd) := by
    intro nodes hordered hmem
    induction nodes with
    | nil => simp at hmem
    | cons node rest ih =>
      obtain ⟨hhead, htail⟩ := List.pairwise_cons.mp hordered
      cases List.mem_cons.mp hmem with
      | inl hfirst =>
        subst hfirst
        have hall : rest.filter (fun node => node.1 != handle) = rest :=
          List.filter_eq_self.mpr fun node hnode => by
            have hlater := hhead node hnode
            simp only [bne_iff_ne, ne_eq]
            omega
        simp [hall]
      | inr hlater =>
        have hne : node.1 ≠ handle := by
          have hyounger := hhead _ hlater
          simp only at hyounger
          omega
        rw [List.filter_cons_of_pos (by simpa using hne)]
        exact ((ih htail hlater).cons node.2).trans (List.Perm.swap _ _ _)
  exact haux l.nodes l.ordered ((get?_eq_some_iff l handle a).mp h)

/-! ## Walking along the list -/

/-- The first handle is the smallest. -/
theorem first?_eq_some {l : NodeList α} {handle : ℕ} (h : l.first? = some handle) :
    handle ∈ l.handles ∧ ∀ other ∈ l.handles, handle ≤ other := by
  obtain ⟨node, hnode, rfl⟩ := Option.map_eq_some_iff.mp h
  obtain ⟨rest, hrest⟩ := List.head?_eq_some_iff.mp hnode
  have hordered := l.ordered
  rw [hrest] at hordered
  have hhead := (List.pairwise_cons.mp hordered).1
  rw [handles, hrest]
  refine ⟨by simp, ?_⟩
  intro other hother
  obtain ⟨a, ha, rfl⟩ := List.mem_map.mp hother
  cases List.mem_cons.mp ha with
  | inl hself => exact Nat.le_of_eq (congrArg Prod.fst hself.symm)
  | inr hlater => exact Nat.le_of_lt (hhead a hlater)

/-- A list without a first handle is empty. -/
theorem handles_of_first?_eq_none {l : NodeList α} (h : l.first? = none) : l.handles = [] := by
  rw [first?, Option.map_eq_none_iff, List.head?_eq_none_iff] at h
  simp [handles, h]

/-- A live handle splits the list, and the next one begins what comes after it. -/
theorem exists_split {l : NodeList α} {handle : ℕ} (h : handle ∈ l.handles) :
    ∃ before a after, l.nodes = before ++ (handle, a) :: after ∧
      (∀ node ∈ before, node.1 < handle) ∧ (∀ node ∈ after, handle < node.1) ∧
      l.next? handle = after.head?.map Prod.fst := by
  obtain ⟨a, ha⟩ := (l.mem_handles_iff handle).mp h
  obtain ⟨before, after, hsplit⟩ := List.append_of_mem ((l.get?_eq_some_iff handle a).mp ha)
  have hordered := l.ordered
  rw [hsplit, List.pairwise_append, List.pairwise_cons] at hordered
  obtain ⟨-, ⟨hafter, -⟩, hbefore⟩ := hordered
  have hlow : ∀ node ∈ before, node.1 < handle :=
    fun node hnode => hbefore node hnode _ List.mem_cons_self
  have hskip : ∀ node ∈ before, (node.1 != handle) = true :=
    fun node hnode => bne_iff_ne.mpr (Nat.ne_of_lt (hlow node hnode))
  refine ⟨before, a, after, hsplit, hlow, hafter, ?_⟩
  rw [next?, hsplit, List.dropWhile_append_of_pos hskip, List.dropWhile_cons_of_neg (by simp)]
  rfl

/-- Nothing lies between a live handle and the next one. -/
theorem next?_eq_some {l : NodeList α} {handle following : ℕ} (h : handle ∈ l.handles)
    (hnext : l.next? handle = some following) :
    following ∈ l.handles ∧ handle < following ∧
      ∀ other ∈ l.handles, other < following → other ≤ handle := by
  obtain ⟨before, a, after, hsplit, hlow, hafter, heq⟩ := exists_split h
  obtain ⟨node, hnode, rfl⟩ := Option.map_eq_some_iff.mp (heq.symm.trans hnext)
  obtain ⟨rest, hrest⟩ := List.head?_eq_some_iff.mp hnode
  have hordered := l.ordered
  rw [hsplit, hrest, List.pairwise_append, List.pairwise_cons, List.pairwise_cons] at hordered
  obtain ⟨-, ⟨-, hlater, -⟩, -⟩ := hordered
  have hmem : node ∈ after := by simp [hrest]
  refine ⟨?_, hafter node hmem, ?_⟩
  · rw [handles, hsplit, hrest]
    simp
  · intro other hother hless
    rw [handles, hsplit, hrest] at hother
    simp only [List.map_append, List.map_cons, List.mem_append, List.mem_cons,
      List.mem_map] at hother
    grind

/-- After the last handle nothing follows. -/
theorem next?_eq_none {l : NodeList α} {handle : ℕ} (h : handle ∈ l.handles)
    (hnext : l.next? handle = none) : ∀ other ∈ l.handles, other ≤ handle := by
  obtain ⟨before, a, after, hsplit, hlow, -, heq⟩ := exists_split h
  have hafter : after = [] := by simpa using heq.symm.trans hnext
  intro other hother
  rw [handles, hsplit, hafter] at hother
  simp only [List.map_append, List.map_cons, List.mem_append, List.mem_cons, List.mem_map] at hother
  grind

end NodeList

end Common
