import Mathlib.Data.List.Nodup
import Mathlib.Logic.Function.Basic

/-!
# Reading options from several sources

Options are declared with a default value and the variable they are bound to, stored source by
source in a variables map and then written to their variables. The operations are those of a
library that is known by its documentation: they are fields of a structure, and so is what is
documented of them.
-/

namespace Common

/-- A declared option. -/
structure OptionDescription (α : Type) where
  longName : String
  target : String
  defaultValue : α

/-- A group of declared options. -/
structure OptionsDescription (α : Type) where
  options : List (OptionDescription α)
  named : ∀ d ∈ options, d.longName ≠ ""
  distinctNames : (options.map OptionDescription.longName).Nodup
  distinctTargets : (options.map OptionDescription.target).Nodup

/-- A finite map from option names to values. -/
structure OptionMap (α : Type) where
  entries : List (String × α)
  distinct : (entries.map Prod.fst).Nodup

/-- The value a map has for a name. -/
def OptionMap.lookup {α : Type} (m : OptionMap α) (name : String) : Option α :=
  m.entries.lookup name

/-- A variables map: the value of an option, and whether it is a default. -/
abbrev VariablesMap (α : Type) := String → Option (α × Bool)

/-- The variables options are bound to. -/
abbrev Variables (α : Type) := String → Option α

/-- Where the first source has a value it counts, then the second one, then the default. -/
def OptionDescription.preferred {α : Type} (d : OptionDescription α)
    (first second : Option α) : α :=
  first.getD (second.getD d.defaultValue)

/-- A second source may be left out exactly where it has nothing to say: the first one has a value,
or the second one has none but the default. -/
theorem OptionDescription.preferred_none_eq_iff {α : Type} (d : OptionDescription α)
    (first second : Option α) :
    d.preferred first none = d.preferred first second ↔
      (first = none → ∀ v, second = some v → v = d.defaultValue) := by
  unfold preferred
  cases first with
  | some value => simp
  | none =>
    cases second with
    | none => simp
    | some value => simp [eq_comm]

/-- The name mapper that lets the declared names of a group through. -/
def OptionsDescription.mapper {α : Type} (group : OptionsDescription α) (name : String) : String :=
  if group.options.any fun d => name == d.longName then name else ""

/-- The operations of the library. -/
structure ProgramOptions (α : Type) where
  Stream : Type
  exhausted : Stream → Prop
  openFile : OptionMap α → Stream
  parseEnvironment : (String → String) → OptionMap α → List (String × α)
  parseConfigFile : OptionsDescription α → Stream → List (String × α) × Stream
  store : OptionsDescription α → List (String × α) → VariablesMap α → VariablesMap α
  notify : OptionsDescription α → VariablesMap α → Variables α → Variables α
  /-- A variable is parsed under the name the mapper gives it, and dropped if it gives none. -/
  parseEnvironment_eq : ∀ mapper environment, parseEnvironment mapper environment =
    environment.entries.filterMap fun entry =>
      if mapper entry.1 = "" then none else some (mapper entry.1, entry.2)
  /-- A file is read from the current position of its stream, at first its beginning. -/
  parseConfigFile_open : ∀ group file, (parseConfigFile group (openFile file)).1 = file.entries
  /-- A file is read to its end. -/
  parseConfigFile_reads : ∀ group stream, exhausted (parseConfigFile group stream).2
  /-- At the end of a file there are no options. -/
  parseConfigFile_exhausted : ∀ group stream, exhausted stream →
    (parseConfigFile group stream).1 = []
  /-- A value that is not a default stays. -/
  store_keeps : ∀ group parsed vm, ∀ d ∈ group.options, ∀ v, vm d.longName = some (v, false) →
    store group parsed vm d.longName = some (v, false)
  /-- A parsed value is stored where there is none but a default. -/
  store_parsed : ∀ group parsed vm, ∀ d ∈ group.options, ∀ v,
    (∀ w, vm d.longName ≠ some (w, false)) → parsed.lookup d.longName = some v →
    store group parsed vm d.longName = some (v, false)
  /-- An option without a value gets its default. -/
  store_default : ∀ group parsed vm, ∀ d ∈ group.options, vm d.longName = none →
    parsed.lookup d.longName = none → store group parsed vm d.longName = some (d.defaultValue, true)
  /-- A default stays while nothing is parsed. -/
  store_defaulted : ∀ group parsed vm, ∀ d ∈ group.options, ∀ v, vm d.longName = some (v, true) →
    parsed.lookup d.longName = none → store group parsed vm d.longName = some (v, true)
  /-- The variable of a stored option gets its value. -/
  notify_bound : ∀ group vm bound, ∀ d ∈ group.options, ∀ stored, vm d.longName = some stored →
    notify group vm bound d.target = some stored.1
  /-- Other variables are left alone. -/
  notify_other : ∀ group vm bound x, (∀ d ∈ group.options, d.target ≠ x) →
    notify group vm bound x = bound x

namespace ProgramOptions

variable {α : Type} (B : ProgramOptions α) {group : OptionsDescription α} {d : OptionDescription α}

/-- A declared variable is parsed under its own name. -/
theorem parseEnvironment_lookup (environment : OptionMap α) (hd : d ∈ group.options) :
    (B.parseEnvironment group.mapper environment).lookup d.longName =
      environment.lookup d.longName := by
  have hname := group.named d hd
  have hdeclared : group.mapper d.longName = d.longName :=
    if_pos (List.any_eq_true.mpr ⟨d, hd, by simp⟩)
  have hmapped (name : String) (hkept : group.mapper name ≠ "") : group.mapper name = name :=
    (ite_eq_or_eq _ _ _).resolve_right hkept
  rw [B.parseEnvironment_eq, OptionMap.lookup]
  induction environment.entries with
  | nil => rfl
  | cons entry rest ih =>
    obtain ⟨name, value⟩ := entry
    by_cases hsame : d.longName = name
    · subst hsame
      rw [List.filterMap_cons_some (by simp only [hdeclared, if_neg hname]; rfl)]
      simp
    · have htest : (d.longName == name) = false := beq_eq_false_iff_ne.mpr hsame
      by_cases hdropped : group.mapper name = ""
      · simp only [List.filterMap_cons, if_pos hdropped, ih, List.lookup_cons, htest]
      · have hkept := hmapped name hdropped
        rw [hkept] at hdropped
        simp only [List.filterMap_cons, hkept, if_neg hdropped, List.lookup_cons, htest, ih]

/-- Of two sources stored one after the other the first one that has a value counts, then the
default. -/
theorem store_twice (group : OptionsDescription α) (first second : List (String × α))
    (hd : d ∈ group.options) :
    ∃ defaulted, B.store group second (B.store group first fun _ => none) d.longName =
      some (d.preferred (first.lookup d.longName) (second.lookup d.longName), defaulted) := by
  unfold OptionDescription.preferred
  cases hfirst : first.lookup d.longName with
  | some v =>
    have hstored := B.store_parsed group first (fun _ => none) d hd v (by simp) hfirst
    exact ⟨false, B.store_keeps group second _ d hd v hstored⟩
  | none =>
    have hdefault := B.store_default group first (fun _ => none) d hd rfl hfirst
    cases hsecond : second.lookup d.longName with
    | some v => exact ⟨false, B.store_parsed group second _ d hd v (by simp [hdefault]) hsecond⟩
    | none => exact ⟨true, B.store_defaulted group second _ d hd _ hdefault hsecond⟩

/-- What an option's variable holds when the environment was stored first and then a file. -/
theorem notify_twice (environment : OptionMap α) (parsed : List (String × α))
    (bound : Variables α) (hd : d ∈ group.options) :
    B.notify group (B.store group parsed
        (B.store group (B.parseEnvironment group.mapper environment) fun _ => none)) bound
        d.target =
      some (d.preferred (environment.lookup d.longName) (parsed.lookup d.longName)) := by
  obtain ⟨defaulted, hstored⟩ :=
    B.store_twice group (B.parseEnvironment group.mapper environment) parsed hd
  rw [B.notify_bound group _ bound d hd _ hstored, B.parseEnvironment_lookup environment hd]

/-! ## A library that does what is documented -/

/-- A key that tells the elements of a list apart finds the element it belongs to. -/
theorem find?_key {β : Type} {key : β → String} {l : List β} {b : β}
    (hdistinct : (l.map key).Nodup) (hb : b ∈ l) :
    l.find? (fun c => key c == key b) = some b := by
  induction l with
  | nil => exact absurd hb (by simp)
  | cons c rest ih =>
    rw [List.map_cons, List.nodup_cons] at hdistinct
    cases List.mem_cons.mp hb with
    | inl hself =>
      subst hself
      rw [List.find?_cons_of_pos (by simp)]
    | inr hrest =>
      have hne : key c ≠ key b := fun hsame => hdistinct.1 (hsame ▸ List.mem_map_of_mem hrest)
      rw [List.find?_cons_of_neg (by simp [hne])]
      exact ih hdistinct.2 hrest

/-- Store a value unless there is one that is not a default, and a default where there is none. -/
def storeOne (d : OptionDescription α) (parsed : Option α) (stored : Option (α × Bool)) :
    Option (α × Bool) :=
  match stored, parsed with
  | some (v, false), _ => some (v, false)
  | _, some v => some (v, false)
  | some (v, true), none => some (v, true)
  | none, none => some (d.defaultValue, true)

/-- Files are lists of entries, read in one go. -/
def documented (α : Type) : ProgramOptions α where
  Stream := List (String × α)
  exhausted := fun stream => stream = []
  openFile := OptionMap.entries
  parseEnvironment := fun mapper environment => environment.entries.filterMap fun entry =>
    if mapper entry.1 = "" then none else some (mapper entry.1, entry.2)
  parseConfigFile := fun _ stream => (stream, [])
  store := fun group parsed vm name =>
    match group.options.find? fun d => d.longName == name with
    | some d => storeOne d (parsed.lookup name) (vm name)
    | none => vm name
  notify := fun group vm bound x =>
    match group.options.find? fun d => d.target == x with
    | some d => ((vm d.longName).map Prod.fst).or (bound x)
    | none => bound x
  parseEnvironment_eq := fun _ _ => rfl
  parseConfigFile_open := fun _ _ => rfl
  parseConfigFile_reads := fun _ _ => rfl
  parseConfigFile_exhausted := fun _ _ hend => hend
  store_keeps := fun group parsed vm d hd v hv => by
    simp [find?_key group.distinctNames hd, hv, storeOne]
  store_parsed := fun group parsed vm d hd v hnone hv => by
    rw [find?_key group.distinctNames hd, hv]
    cases hstored : vm d.longName with
    | none => rfl
    | some stored =>
      obtain ⟨w, defaulted⟩ := stored
      cases defaulted with
      | true => rfl
      | false => exact absurd hstored (hnone w)
  store_default := fun group parsed vm d hd hnone hparsed => by
    simp [find?_key group.distinctNames hd, hnone, hparsed, storeOne]
  store_defaulted := fun group parsed vm d hd v hv hparsed => by
    simp [find?_key group.distinctNames hd, hv, hparsed, storeOne]
  notify_bound := fun group vm bound d hd stored hstored => by
    simp [find?_key group.distinctTargets hd, hstored]
  notify_other := fun group vm bound x hother => by
    have hnone : group.options.find? (fun d => d.target == x) = none := by
      simpa using hother
    rw [hnone]

end ProgramOptions

end Common
