import Bwap.Common.Decimals
import Bwap.Memory.Distinguished
import Bwap.Mode.Singletons
import Bwap.Placement.WeightSums

/-!
# The constructor of the library

`libunstickymem_initialize` reads the variables of the environment and the weights, and then builds
the two singletons. Every variable that is set must start with an `int`, the weights must be given
and fit into the table, the configuration must be loaded, and the maps file must describe a process.
What the library looks like afterwards is said for the configurations that start no thread.
-/

namespace Bwap

open Common

/-- Why `read_config` does not return. -/
inductive ConfigFault
  | thrown (error : StoiError)
  | exited (message : String)
  | faulted (fault : WeightsFault)
deriving DecidableEq

/-- What `read_config` reads: the variables of the environment, and for the name of a file what
`system` returns for the command that sorts it and what `fopen` opens. -/
structure ConfigSource where
  getenv : String → Option (List Char)
  sorted : List Char → ℤ × Option (List Char)

/-- The globals that `read_config` sets. -/
structure LibraryConfig where
  optNumWorkersValue : ℤ
  nodesInfo : List StoredRecord
  monitoringCore : Bool
  monitoringCoreValue : ℤ
  pmcValue : ℤ

namespace ConfigSource

variable (source : ConfigSource)

/-- A variable read by `stoi`, if it is set. -/
def readInt (name : String) (defaultValue : ℤ) : Except ConfigFault ℤ :=
  match source.getenv name with
  | none => .ok defaultValue
  | some text => (stoi text).mapError .thrown

/-- The weights, if their file is named. -/
def readTable (nodesInfo : List StoredRecord) : Except ConfigFault (List StoredRecord) :=
  match source.getenv "BWAP_WEIGHTS" with
  | none => .error (.exited "Sorry, Weights have not been provided!")
  | some filename =>
    let (retcode, opened) := source.sorted filename
    match readWeights atof atoi sortNumeric retcode opened nodesInfo with
    | .exited message => .error (.exited message)
    | .faulted fault => .error (.faulted fault)
    | .returned nodesInfo => .ok nodesInfo

/-- `read_config`. -/
def readConfig (maxNodes : ℕ) : Except ConfigFault LibraryConfig := do
  let workers ← source.readInt "UNSTICKYMEM_WORKERS" 1
  let nodesInfo ← source.readTable (SumsState.start maxNodes).nodesInfo
  let core ← source.readInt "BWAP_CORE" 0
  let pmc ← source.readInt "BWAP_PMC" 0
  return ⟨workers, nodesInfo, (source.getenv "BWAP_CORE").isSome, core, pmc⟩

/-- A variable is not set or starts with an `int`. -/
def FitsInt (name : String) : Prop :=
  ∀ text, source.getenv name = some text →
    ∃ n, readInteger text = some n ∧ -2 ^ 31 ≤ n ∧ n < 2 ^ 31

/-- The weights are named and sorted, their file is opened, it has no more lines than the table has
records, and each of them has two tokens. -/
def GivesWeights (maxNodes : ℕ) : Prop :=
  ∃ filename content, source.getenv "BWAP_WEIGHTS" = some filename ∧
    (source.sorted filename).1 ≠ -1 ∧ (source.sorted filename).2 = some content ∧
    (fileLines content).length ≤ maxNodes ∧ ∀ line ∈ fileLines content, TwoTokens line

/-- A variable is read exactly when it fits. -/
theorem readInt_ok_iff (name : String) (defaultValue : ℤ) :
    (∃ n, source.readInt name defaultValue = .ok n) ↔ source.FitsInt name := by
  unfold readInt FitsInt
  cases hset : source.getenv name with
  | none => simp
  | some text => simp [mapError_eq_ok_iff, stoi_eq_ok_iff]

/-- Lines that all have two tokens all have records. -/
theorem exists_records {lines : List (List Char)} (htokens : ∀ line ∈ lines, TwoTokens line) :
    ∃ records : List StoredRecord,
      lines.map (lineRecord atof atoi) = records.map some := by
  have hsome : ∀ entry ∈ lines.map (lineRecord atof atoi), entry.isSome := by
    intro entry hentry
    obtain ⟨line, hline, rfl⟩ := List.mem_map.mp hentry
    exact (lineRecord_isSome_iff line).mpr (htokens line hline)
  exact ⟨_, (map_some_pmap hsome).symm⟩

/-- The weights are read exactly when they are given. -/
theorem readTable_ok_iff (nodesInfo : List StoredRecord) :
    (∃ table, source.readTable nodesInfo = .ok table) ↔ source.GivesWeights nodesInfo.length := by
  unfold readTable
  cases hset : source.getenv "BWAP_WEIGHTS" with
  | none => simp [GivesWeights, hset]
  | some filename =>
    have hreturned : (∃ table, readWeights atof atoi sortNumeric (source.sorted filename).1
        (source.sorted filename).2 nodesInfo = .returned table) ↔
          source.GivesWeights nodesInfo.length := by
      unfold GivesWeights
      simp only [hset, Option.some.injEq, exists_and_left, exists_eq_left']
      by_cases hretcode : (source.sorted filename).1 = -1
      · simp [readWeights, hretcode]
      · cases hopened : (source.sorted filename).2 with
        | none => simp [readWeights, hretcode]
        | some content =>
          have hperm := sortNumeric_perm (fileLines content)
          simp only [readWeights_eq_returned_iff sortNumeric_perm hretcode, Option.some.injEq]
          constructor
          · rintro ⟨table, records, hrecords, hfits, -⟩
            refine ⟨hretcode, content, rfl, hfits, fun line hline => ?_⟩
            have hmem := List.mem_map_of_mem (f := lineRecord atof atoi) (hperm.mem_iff.mpr hline)
            rw [hrecords] at hmem
            obtain ⟨record, -, hrecord⟩ := List.mem_map.mp hmem
            exact (lineRecord_isSome_iff line).mp (by rw [← hrecord, Option.isSome_some])
          · rintro ⟨-, content', rfl, hfits, htokens⟩
            obtain ⟨records, hrecords⟩ := exists_records fun line hline =>
              htokens line (hperm.mem_iff.mp hline)
            exact ⟨_, records, hrecords, hfits, rfl⟩
    rw [← hreturned]
    cases hrun : readWeights atof atoi sortNumeric (source.sorted filename).1
      (source.sorted filename).2 nodesInfo with
    | exited message => simp [hrun]
    | faulted fault => simp [hrun]
    | returned table => simp [hrun]

/-- The configuration is read exactly when all of it is; the table keeps its length. -/
theorem readConfig_ok_iff (maxNodes : ℕ) (table : List StoredRecord) :
    (∃ config, source.readConfig maxNodes = .ok config ∧ config.nodesInfo = table) ↔
      (source.FitsInt "UNSTICKYMEM_WORKERS" ∧ source.FitsInt "BWAP_CORE" ∧
        source.FitsInt "BWAP_PMC") ∧
        source.readTable (SumsState.start maxNodes).nodesInfo = .ok table := by
  constructor
  · rintro ⟨config, hok, rfl⟩
    obtain ⟨workers, hworkers, hok⟩ := bind_eq_ok_iff.mp hok
    obtain ⟨nodesInfo, htable, hok⟩ := bind_eq_ok_iff.mp hok
    obtain ⟨core, hcore, hok⟩ := bind_eq_ok_iff.mp hok
    obtain ⟨pmc, hpmc, hok⟩ := bind_eq_ok_iff.mp hok
    obtain rfl := Except.ok.inj hok
    exact ⟨⟨(source.readInt_ok_iff _ _).mp ⟨workers, hworkers⟩,
      (source.readInt_ok_iff _ _).mp ⟨core, hcore⟩, (source.readInt_ok_iff _ _).mp ⟨pmc, hpmc⟩⟩,
      htable⟩
  · rintro ⟨⟨hworkers, hcore, hpmc⟩, htable⟩
    obtain ⟨workers, hworkers⟩ := (source.readInt_ok_iff _ 1).mpr hworkers
    obtain ⟨core, hcore⟩ := (source.readInt_ok_iff _ 0).mpr hcore
    obtain ⟨pmc, hpmc⟩ := (source.readInt_ok_iff _ 0).mpr hpmc
    refine ⟨⟨workers, table, (source.getenv "BWAP_CORE").isSome, core, pmc⟩, ?_, rfl⟩
    rw [readConfig, hworkers, htable, hcore, hpmc]
    rfl

end ConfigSource

/-- Why the constructor of the library does not return. -/
inductive LibraryFault
  | config (fault : ConfigFault)
  | start (fault : StartFault)
deriving DecidableEq

/-- The globals after the constructor of the library. -/
structure Library where
  config : LibraryConfig
  memory : MemoryMap
  runtime : Configuration
  singletons : Singletons

/-- `libunstickymem_initialize`, up to some depth of constructors inside each other. The modes place
pages with the weights that were read. -/
def libunstickymemInitialize (source : ConfigSource) (env : List Record → StartEnv) (maxNodes : ℕ)
    (depth : ℕ) : Except LibraryFault Library := do
  let config ← (source.readConfig maxNodes).mapError .config
  let env := env (config.nodesInfo.map StoredRecord.toRecord)
  let (memory, s) ← (env.memoryInstance depth .start).mapError .start
  let (runtime, s) ← (env.runtimeInstance (env.memoryInstance depth) s).mapError .start
  return ⟨config, memory, runtime, s⟩

/-- The library comes up with the configuration it read, the map of the process and the runtime. -/
theorem libunstickymemInitialize_eq_ok_iff {source : ConfigSource} {env : List Record → StartEnv}
    {maxNodes depth : ℕ} {library : Library} :
    libunstickymemInitialize source env maxNodes depth = .ok library ↔
      source.readConfig maxNodes = .ok library.config ∧ 0 < depth ∧
        let env := env (library.config.nodesInfo.map StoredRecord.toRecord)
        env.Terminates library.runtime ∧
        MemoryMap.ofMaps (env.callbacks library.runtime.mode) env.etext env.edata env.lines =
          .ok library.memory ∧
        library.singletons =
          { Singletons.ready library.runtime with memory := some library.memory } := by
  constructor
  · intro hok
    obtain ⟨config, hconfig, hok⟩ := bind_eq_ok_iff.mp hok
    obtain ⟨⟨memory, s⟩, hmemory, hok⟩ := bind_eq_ok_iff.mp hok
    obtain ⟨⟨runtime, s'⟩, hruntime, hok⟩ := bind_eq_ok_iff.mp hok
    obtain rfl := Except.ok.inj hok
    rw [mapError_eq_ok_iff] at hconfig hmemory hruntime
    obtain ⟨hdepth, built, hterminates, hmaps, rfl⟩ :=
      (StartEnv.memoryInstance_ok_iff _ depth memory s).mp hmemory
    obtain ⟨rfl, rfl⟩ := Prod.mk.inj (Except.ok.inj hruntime)
    exact ⟨hconfig, hdepth, hterminates, hmaps, rfl⟩
  · rintro ⟨hconfig, hdepth, hterminates, hmaps, hsingletons⟩
    obtain ⟨config, memory, runtime, singletons⟩ := library
    dsimp only at hconfig hterminates hmaps hsingletons
    subst hsingletons
    have hmemory := (StartEnv.memoryInstance_ok_iff _ depth memory _).mpr
      ⟨hdepth, runtime, hterminates, hmaps, rfl⟩
    exact bind_eq_ok_iff.mpr ⟨config, mapError_eq_ok_iff.mpr hconfig,
      bind_eq_ok_iff.mpr ⟨_, mapError_eq_ok_iff.mpr hmemory, rfl⟩⟩

/-- The library comes up without having started a thread exactly when every variable of the
environment that is set fits, the weights are given, the configuration is loaded, starts no thread
and does not start the scan mode by itself, and the maps file describes a process. Its map then
has the four segments it is asked for, and the singletons are the objects returned. -/
theorem libunstickymemInitialize_ok_iff (source : ConfigSource) (env : List Record → StartEnv)
    (maxNodes : ℕ) :
    ((∃ depth library, libunstickymemInitialize source env maxNodes depth = .ok library ∧
        library.singletons.threads = []) ↔
      (source.FitsInt "UNSTICKYMEM_WORKERS" ∧ source.FitsInt "BWAP_CORE" ∧
        source.FitsInt "BWAP_PMC") ∧ source.GivesWeights maxNodes ∧
        ∀ table, source.readTable (SumsState.start maxNodes).nodesInfo = .ok table →
          let env := env (table.map StoredRecord.toRecord)
          ∃ config segments, env.Terminates config ∧ config.StartsNoThread ∧
            MemoryMap.ofMaps (env.callbacks config.mode) env.etext env.edata env.lines =
              .ok segments) ∧
      ∀ depth library, libunstickymemInitialize source env maxNodes depth = .ok library →
        library.singletons.threads = [] →
          library.memory.Distinguished ∧ library.singletons.memory = some library.memory ∧
            library.singletons.runtime = some library.runtime := by
  have hgives : (∃ table, source.readTable (SumsState.start maxNodes).nodesInfo = .ok table) ↔
      source.GivesWeights maxNodes := by
    have hread := source.readTable_ok_iff (SumsState.start maxNodes).nodesInfo
    rwa [SumsState.start, List.length_replicate] at hread
  refine ⟨?_, fun depth library hok _ => ?_⟩
  · constructor
    · rintro ⟨depth, library, hok, hthreads⟩
      obtain ⟨hconfig, -, hterminates, hmaps, hsingletons⟩ :=
        libunstickymemInitialize_eq_ok_iff.mp hok
      obtain ⟨hfits, htable⟩ :=
        (source.readConfig_ok_iff maxNodes _).mp ⟨library.config, hconfig, rfl⟩
      rw [hsingletons] at hthreads
      have hquiet := (Singletons.ready_threads_iff library.runtime).mp hthreads
      refine ⟨hfits, hgives.mp ⟨_, htable⟩, fun table hsame => ?_⟩
      obtain rfl := Except.ok.inj (htable.symm.trans hsame)
      exact ⟨library.runtime, library.memory, hterminates, hquiet, hmaps⟩
    · rintro ⟨hfits, hweights, hprocess⟩
      obtain ⟨table, htable⟩ := hgives.mpr hweights
      obtain ⟨config, segments, hterminates, hquiet, hmaps⟩ := hprocess table htable
      obtain ⟨library, hconfig, rfl⟩ :=
        (source.readConfig_ok_iff maxNodes table).mpr ⟨hfits, htable⟩
      let singletons := { Singletons.ready config with memory := some segments }
      exact ⟨1, ⟨library, segments, config, singletons⟩, libunstickymemInitialize_eq_ok_iff.mpr
        ⟨hconfig, Nat.one_pos, hterminates, hmaps, rfl⟩,
        (Singletons.ready_threads_iff config).mpr hquiet⟩
  · obtain ⟨-, -, -, hmaps, hsingletons⟩ := libunstickymemInitialize_eq_ok_iff.mp hok
    rw [hsingletons]
    exact ⟨MemoryMap.ofMaps_distinguished hmaps, rfl, rfl⟩

end Bwap
