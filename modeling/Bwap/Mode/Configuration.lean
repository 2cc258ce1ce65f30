import Bwap.Common.Fallible
import Bwap.Common.ProgramOptions
import Mathlib.Data.Rat.Defs

/-!
# Loading the configuration

`Runtime::loadConfiguration` stores the options of the library from the environment and from the
ini file, and then those of the selected mode. Both stages read the same file stream, which the
first one leaves at its end.
-/

namespace Bwap

open Common

/-- The values of options, parsed. -/
inductive OptionValue
  | bool (value : Bool)
  | string (value : String)
  | unsigned (value : ℕ)
  | double (value : ℚ)
deriving DecidableEq

/-- The registered modes. -/
inductive ModeName
  | adaptive
  | disabled
  | fixed
  | scan
  | wadaptive
deriving DecidableEq, Repr

namespace ModeName

/-- `name`. -/
def name : ModeName → String
  | adaptive => "adaptive"
  | disabled => "disabled"
  | fixed => "fixed"
  | scan => "scan"
  | wadaptive => "wadaptive"

/-- Every mode. -/
def registry : List ModeName := [adaptive, disabled, fixed, scan, wadaptive]

end ModeName

/-- Why the configuration is not loaded. -/
inductive LoadFault
  | died (message : String)
  | exited (code : ℤ)
deriving DecidableEq, Repr

/-- `Mode::getMode`. -/
def getMode (name : Option OptionValue) : Except LoadFault ModeName :=
  match ModeName.registry.find? fun mode => name == some (.string mode.name) with
  | some mode => .ok mode
  | none => .error (.died "Please select one of the available modes :-)")

/-- `UNSTICKYMEM_HELP`. -/
def helpOption : OptionDescription OptionValue :=
  ⟨"UNSTICKYMEM_HELP", "option_help", .bool false⟩

/-- `UNSTICKYMEM_MODE`. -/
def modeOption : OptionDescription OptionValue :=
  ⟨"UNSTICKYMEM_MODE", "_mode_name", .string "wadaptive"⟩

/-- The options of the library. -/
def libOptions : OptionsDescription OptionValue where
  options :=
    [helpOption,
      modeOption,
      ⟨"UNSTICKYMEM_AUTOSTART", "_autostart", .bool false⟩,
      ⟨"UNSTICKYMEM_LOGLEVEL", "option_loglevel", .string "info"⟩]
  named := by decide
  distinctNames := by decide
  distinctTargets := by decide

/-- `UNSTICKYMEM_WAIT_START`. -/
def waitStart : OptionDescription OptionValue :=
  ⟨"UNSTICKYMEM_WAIT_START", "_wait_start", .unsigned 2⟩

/-- The options of every mode that measures stall rates. -/
def pollOptions : List (OptionDescription OptionValue) :=
  [⟨"UNSTICKYMEM_NUM_POLLS", "_num_polls", .unsigned 20⟩,
    ⟨"UNSTICKYMEM_NUM_POLL_OUTLIERS", "_num_poll_outliers", .unsigned 5⟩,
    ⟨"UNSTICKYMEM_POLL_SLEEP", "_poll_sleep", .unsigned 200000⟩]

/-- `getOptions` of a mode. -/
def ModeName.getOptions : ModeName → OptionsDescription OptionValue
  | adaptive => ⟨waitStart :: pollOptions, by decide, by decide, by decide⟩
  | disabled => ⟨[], by decide, by decide, by decide⟩
  | fixed =>
    ⟨⟨"UNSTICKYMEM_LOCAL_RATIO", "_local_ratio", .double 1⟩ :: pollOptions, by decide, by decide,
      by decide⟩
  | scan =>
    ⟨waitStart :: pollOptions ++
        [⟨"UNSTICKYMEM_EXIT_WHEN_FINISHED", "_exit_when_finished", .bool true⟩],
      by decide, by decide, by decide⟩
  | wadaptive => ⟨waitStart :: pollOptions, by decide, by decide, by decide⟩

/-- The selected mode and the variables the options are bound to. -/
structure Configuration where
  mode : ModeName
  bound : Variables OptionValue

/-- `Runtime::loadConfiguration`. -/
def loadConfiguration (B : ProgramOptions OptionValue) (environment ini : OptionMap OptionValue) :
    Except LoadFault Configuration := do
  let file := B.openFile ini
  -- the options of the library
  let libEnv := B.store libOptions (B.parseEnvironment libOptions.mapper environment) fun _ => none
  let (parsed, file) := B.parseConfigFile libOptions file
  let libEnv := B.store libOptions parsed libEnv
  let bound := B.notify libOptions libEnv fun _ => none
  -- the options of the selected mode
  let mode ← getMode (bound "_mode_name")
  let allOptions := mode.getOptions
  let env := B.store allOptions (B.parseEnvironment allOptions.mapper environment) fun _ => none
  let (parsed, _) := B.parseConfigFile allOptions file
  let env := B.store allOptions parsed env
  let bound := B.notify allOptions env bound
  if bound "option_help" = some (.bool true) then .error (.exited 0)
  else return ⟨mode, bound⟩

/-- The value an option is to have: from the environment, else from the file, else its default. -/
def chosen (environment ini : OptionMap OptionValue) (d : OptionDescription OptionValue) :
    OptionValue :=
  d.preferred (environment.lookup d.longName) (ini.lookup d.longName)

/-- Every option of the library and of the selected mode has the value it is to have. -/
def Precedence (environment ini : OptionMap OptionValue) (config : Configuration) : Prop :=
  ∀ d ∈ libOptions.options ++ config.mode.getOptions.options,
    config.bound d.target = some (chosen environment ini d)

/-- Modes are told apart by their names. -/
theorem ModeName.name_injective : Function.Injective ModeName.name := by
  intro mode mode' h
  cases mode <;> cases mode' <;> first | rfl | exact absurd h (by decide)

/-- The mode that is looked up has the name. -/
theorem getMode_name {name : Option OptionValue} {mode : ModeName} (h : getMode name = .ok mode) :
    name = some (.string mode.name) := by
  unfold getMode at h
  split at h
  · next hfound =>
    obtain rfl := Except.ok.inj h
    have htest := List.find?_some hfound
    exact beq_iff_eq.mp htest
  · exact absurd h (by simp)

/-- Every mode is found by its name. -/
theorem getMode_registered (mode : ModeName) : getMode (some (.string mode.name)) = .ok mode := by
  cases mode <;> rfl

/-- No option of a mode is bound to a variable of the library's options. -/
theorem getOptions_target_ne (mode : ModeName) :
    ∀ d ∈ mode.getOptions.options, ∀ e ∈ libOptions.options, d.target ≠ e.target := by
  cases mode <;> decide

section Load

variable {B : ProgramOptions OptionValue} {environment ini : OptionMap OptionValue}
  {config : Configuration}

/-- The first stage: an option of the library gets the value it is to have. -/
theorem libOptions_bound {d : OptionDescription OptionValue} (hd : d ∈ libOptions.options) :
    B.notify libOptions (B.store libOptions (B.parseConfigFile libOptions (B.openFile ini)).1
        (B.store libOptions (B.parseEnvironment libOptions.mapper environment) fun _ => none))
        (fun _ => none) d.target = some (chosen environment ini d) := by
  rw [B.notify_twice environment _ _ hd, B.parseConfigFile_open]
  rfl

/-- The second stage finds the file at its end: an option of the mode gets its value from the
environment or its default. -/
theorem getOptions_bound {mode : ModeName} {bound : Variables OptionValue}
    {d : OptionDescription OptionValue} (hd : d ∈ mode.getOptions.options) :
    B.notify mode.getOptions (B.store mode.getOptions
        (B.parseConfigFile mode.getOptions (B.parseConfigFile libOptions (B.openFile ini)).2).1
        (B.store mode.getOptions (B.parseEnvironment mode.getOptions.mapper environment)
          fun _ => none)) bound d.target =
      some (d.preferred (environment.lookup d.longName) none) := by
  have hend := B.parseConfigFile_reads libOptions (B.openFile ini)
  rw [B.notify_twice environment _ _ hd, B.parseConfigFile_exhausted _ _ hend, List.lookup_nil]

/-- What is loaded. -/
theorem loadConfiguration_ok (h : loadConfiguration B environment ini = .ok config) :
    chosen environment ini modeOption = .string config.mode.name ∧
      (∀ d ∈ libOptions.options, config.bound d.target = some (chosen environment ini d)) ∧
      ∀ d ∈ config.mode.getOptions.options,
        config.bound d.target = some (d.preferred (environment.lookup d.longName) none) := by
  have hmodeOption : modeOption ∈ libOptions.options := by simp [libOptions]
  obtain ⟨mode, hmode, hrest⟩ := bind_eq_ok_iff.mp h
  change (if _ then Except.error _ else Except.ok _) = _ at hrest
  split_ifs at hrest
  obtain rfl := Except.ok.inj hrest
  have hname := getMode_name hmode
  have hbound := @libOptions_bound B environment ini _ hmodeOption
  refine ⟨Option.some.inj (hbound.symm.trans hname), fun d hd => ?_, fun d hd => ?_⟩
  · exact (B.notify_other _ _ _ _ fun e he => getOptions_target_ne mode e he d hd).trans
      (libOptions_bound hd)
  · exact getOptions_bound hd

/-- The configuration is loaded exactly when the mode it names is registered and no help is asked
for. -/
theorem loadConfiguration_ok_iff :
    (∃ config, loadConfiguration B environment ini = .ok config) ↔
      (∃ mode : ModeName, chosen environment ini modeOption = .string mode.name) ∧
        chosen environment ini helpOption ≠ .bool true := by
  have hmodeOption : modeOption ∈ libOptions.options := by simp [libOptions]
  have hhelpOption : helpOption ∈ libOptions.options := by simp [libOptions]
  have hname := @libOptions_bound B environment ini _ hmodeOption
  have hhelp (mode : ModeName) := (B.notify_other mode.getOptions
    (B.store mode.getOptions
      (B.parseConfigFile mode.getOptions (B.parseConfigFile libOptions (B.openFile ini)).2).1
      (B.store mode.getOptions (B.parseEnvironment mode.getOptions.mapper environment)
        fun _ => none)) _ _
    fun e he => getOptions_target_ne mode e he helpOption hhelpOption).trans
      (@libOptions_bound B environment ini _ hhelpOption)
  constructor
  · rintro ⟨config, h⟩
    refine ⟨⟨config.mode, (loadConfiguration_ok h).1⟩, fun hasked => ?_⟩
    obtain ⟨mode, -, hrest⟩ := bind_eq_ok_iff.mp h
    change (if _ then Except.error _ else Except.ok _) = _ at hrest
    split_ifs at hrest with hexits
    exact hexits ((hhelp mode).trans (congrArg some hasked))
  · rintro ⟨⟨mode, hmode⟩, hnot⟩
    refine ⟨_, bind_eq_ok_iff.mpr ⟨mode, ?_, if_neg fun hasked => hnot ?_⟩⟩
    · rw [hmode] at hname
      exact (congrArg getMode hname).trans (getMode_registered mode)
    · exact Option.some.inj ((hhelp mode).symm.trans hasked)

/-- The environment comes before the file and the file before the defaults, for all options, if and
only if the file has no value but the default for the options of the selected mode that the
environment does not set. -/
theorem loadConfiguration_precedence_iff (h : loadConfiguration B environment ini = .ok config) :
    Precedence environment ini config ↔
      ∀ mode : ModeName, chosen environment ini modeOption = .string mode.name →
        ∀ d ∈ mode.getOptions.options, environment.lookup d.longName = none →
          ∀ v, ini.lookup d.longName = some v → v = d.defaultValue := by
  obtain ⟨hmode, hlib, hoptions⟩ := loadConfiguration_ok h
  have hselected : ∀ mode : ModeName, chosen environment ini modeOption = .string mode.name →
      mode = config.mode := by
    intro mode hname
    exact ModeName.name_injective (OptionValue.string.inj (hname.symm.trans hmode))
  constructor
  · intro hprecedence mode hname d hd
    obtain rfl := hselected mode hname
    have hvalue := hprecedence d (List.mem_append_right _ hd)
    rw [hoptions d hd] at hvalue
    exact (d.preferred_none_eq_iff _ _).mp (Option.some.inj hvalue)
  · intro hdefaults d hd
    cases List.mem_append.mp hd with
    | inl hd => exact hlib d hd
    | inr hd =>
      rw [hoptions d hd]
      exact congrArg some ((d.preferred_none_eq_iff _ _).mpr (hdefaults _ hmode d hd))

end Load

/-- Nothing is set. -/
def unset : OptionMap OptionValue := ⟨[], by decide⟩

/-- A hundred polls for a placement. -/
def manyPolls : OptionMap OptionValue := ⟨[("UNSTICKYMEM_NUM_POLLS", .unsigned 100)], by decide⟩

/-- The scan mode, with a log level. -/
def tracedScan : OptionMap OptionValue :=
  ⟨[("UNSTICKYMEM_MODE", .string "scan"), ("UNSTICKYMEM_LOGLEVEL", .string "trace")], by decide⟩

/-- Options of the library in the file and an option of the mode in the environment. -/
theorem loadConfiguration_precedence_scan :
    ∃ config, loadConfiguration (.documented _) manyPolls tracedScan = .ok config ∧
      Precedence manyPolls tracedScan config := by
  refine ⟨⟨.scan, _⟩, rfl, ?_⟩
  apply (loadConfiguration_precedence_iff (B := .documented _) rfl).mpr
  intro mode _ d hd _ v hv
  have hnone : ∀ mode : ModeName, ∀ d ∈ mode.getOptions.options,
      tracedScan.lookup d.longName = none := by
    intro mode
    cases mode <;> decide
  exact absurd ((hnone mode d hd).symm.trans hv) (by simp)

/-- A number of polls in the file is not read. -/
theorem file_polls_not_loaded :
    ∃ config, loadConfiguration (.documented _) unset manyPolls = .ok config ∧
      ¬ Precedence unset manyPolls config := by
  refine ⟨⟨.wadaptive, _⟩, rfl, fun hprecedence => ?_⟩
  have hpolls := hprecedence ⟨"UNSTICKYMEM_NUM_POLLS", "_num_polls", .unsigned 20⟩
    (List.mem_append_right _ (.tail _ (.head _)))
  exact absurd hpolls (by decide)

end Bwap
