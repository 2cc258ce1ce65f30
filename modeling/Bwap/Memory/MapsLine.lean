import Bwap.Common.Scanf
import Bwap.Memory.Segment

/-!
# Lines of the maps file

The kernel prints a mapping on one line: both addresses and the offset in hexadecimal, four
permission characters, the device as two hexadecimal numbers of at least two digits, the
inode in decimal, and a name after some spaces. The constructor reads the line with one
format, in which the two device numbers are decimal. It therefore undoes the printing only
for devices whose hexadecimal digits are all decimal ones.
-/

namespace Bwap

open Common

/-- The format `%lx-%lx %7s %lx %u:%u %lu %n%*[^\n]%n`. -/
def mapsFormat : List Directive :=
  [.unsigned 16 64, .literal '-', .unsigned 16 64, .space, .word 7, .space, .unsigned 16 64, .space,
    .unsigned 10 32, .literal ':', .unsigned 10 32, .space, .unsigned 10 64, .space, .position,
    .skipTo '\n', .position]

/-- `MemorySegment(char *line)`; positions that were not recorded are zero, as initialised. -/
def MemorySegment.ofLine (line : List Char) : Except Fault MemorySegment :=
  let stored := scan mapsFormat line
  if conversions stored < 7 then .error (.died "FAILED TO PARSE")
  else
    let addrStart := (numbers stored).getD 0 0
    let addrEnd := (numbers stored).getD 1 0
    let nameStart := (positions stored).getD 0 0
    let nameEnd := (positions stored).getD 1 0
    let name := if nameEnd > nameStart then (line.take nameEnd).drop nameStart else []
    .ok ⟨.ofNat 64 addrStart, .ofNat 64 addrEnd - 1, String.ofList name⟩

/-- A mapping as the kernel prints it. A mapping without a name has the empty one. -/
structure MapsEntry where
  start : Word
  stop : Word
  perms : List Char
  offset : Word
  major : BitVec 32
  minor : BitVec 32
  inode : Word
  padding : ℕ
  name : List Char
  ordered : start < stop
  fourPerms : perms.length = 4
  visiblePerms : ∀ c ∈ perms, isSpace c = false
  oneLine : '\n' ∉ name
  visibleName : ∀ c ∈ name.head?, isSpace c = false

namespace MapsEntry

/-- The end of a line: a space, the padding and the name. -/
def nameField (e : MapsEntry) : List Char :=
  List.replicate (e.padding + 1) ' ' ++ (e.name ++ ['\n'])

/-- The device and the inode, up to the end of the line. -/
def deviceField (e : MapsEntry) : List Char :=
  printNumeral 16 2 e.major.toNat ++ ':' :: (printNumeral 16 2 e.minor.toNat ++
    ' ' :: (printNumeral 10 0 e.inode.toNat ++ e.nameField))

/-- The line of a mapping, with addresses of some minimal width. -/
def line (width : ℕ) (e : MapsEntry) : List Char :=
  printNumeral 16 width e.start.toNat ++ '-' :: (printNumeral 16 width e.stop.toNat ++
    ' ' :: (e.perms ++ ' ' :: (printNumeral 16 width e.offset.toNat ++ ' ' :: e.deviceField)))

/-- The hexadecimal digits of a device number are all decimal ones. -/
def DecimalDigits (n : BitVec 32) : Prop :=
  ∀ c ∈ printNumeral 16 2 n.toNat, isDigitIn 10 c = true

instance (n : BitVec 32) : Decidable (DecimalDigits n) :=
  inferInstanceAs (Decidable (∀ c ∈ _, isDigitIn 10 c = true))

/-- What is left of the format after the offset. -/
def deviceFormat : List Directive :=
  [.unsigned 10 32, .literal ':', .unsigned 10 32, .space, .unsigned 10 64, .space, .position,
    .skipTo '\n', .position]

/-- What is left of the format after the inode. -/
def nameFormat : List Directive := [.space, .position, .skipTo '\n', .position]

variable (e : MapsEntry)

/-- The addresses, the permissions and the offset are read as they were printed. -/
theorem scanFrom_line (total width : ℕ) :
    scanFrom total mapsFormat (e.line width) =
      .number e.start.toNat :: .number e.stop.toNat :: .text e.perms :: .number e.offset.toNat ::
        scanFrom total deviceFormat e.deviceField := by
  have hends : ∀ a : Char, EndsNumber 16 a → ∀ rest : List Char, ∀ c ∈ (a :: rest).head?,
      EndsNumber 16 c := fun a ha rest c hc => Option.some.inj hc ▸ ha
  have hperms : e.perms ≠ [] := by
    intro hnil
    have hfour := e.fourPerms
    simp [hnil] at hfour
  have hpermsHead : ∀ rest : List Char, ∀ c ∈ (e.perms ++ rest).head?, isSpace c = false := by
    intro rest c hc
    rw [List.head?_append_of_ne_nil _ hperms] at hc
    exact e.visiblePerms c (List.mem_of_mem_head? hc)
  rw [line, mapsFormat, scanFrom_printNumeral (by decide) (by decide) (by decide) e.start.isLt
    (hends '-' (by decide) _), scanFrom, if_pos rfl,
    scanFrom_printNumeral (by decide) (by decide) (by decide) e.stop.isLt
    (hends ' ' (by decide) _), scanFrom_space _ _ (hpermsHead _), scanFrom,
    readWord_visible hperms (by rw [e.fourPerms]; decide) e.visiblePerms (by decide)]
  simp only []
  rw [scanFrom_space _ _ (head_printNumeral_visible (by decide) (by decide) _),
    scanFrom_printNumeral (by decide) (by decide) (by decide) e.offset.isLt
    (hends ' ' (by decide) _), scanFrom_space]
  · rfl
  · exact head_printNumeral_visible (by decide) (by decide) _

/-- Device numbers of decimal digits let the scan through to the inode. -/
theorem scanFrom_device (total : ℕ) (hmajor : DecimalDigits e.major)
    (hminor : DecimalDigits e.minor) :
    ∃ major minor, scanFrom total deviceFormat e.deviceField =
      .number major :: .number minor :: .number e.inode.toNat ::
        scanFrom total nameFormat e.nameField := by
  have hends : ∀ a : Char, EndsNumber 10 a → ∀ rest : List Char, ∀ c ∈ (a :: rest).head?,
      EndsNumber 10 c := fun a ha rest c hc => Option.some.inj hc ▸ ha
  refine ⟨storeUnsigned 32 false (numeralValue 10 (printNumeral 16 2 e.major.toNat)),
    storeUnsigned 32 false (numeralValue 10 (printNumeral 16 2 e.minor.toNat)), ?_⟩
  rw [deviceFormat, deviceField, scanFrom, readUnsigned_digits 32 (printNumeral_ne_nil _ _ _) hmajor
    (hends ':' (by decide) _)]
  simp only []
  rw [scanFrom, if_pos rfl, scanFrom, readUnsigned_digits 32 (printNumeral_ne_nil _ _ _) hminor
    (hends ' ' (by decide) _)]
  simp only []
  rw [scanFrom_space _ _ (head_printNumeral_visible (by decide) (by decide) _),
    scanFrom_printNumeral (by decide) (by decide) (by decide) e.inode.isLt]
  · rfl
  · exact hends ' ' (by decide) _

/-- A device number with a hexadecimal letter ends the scan before the inode. -/
theorem conversions_device_lt (total : ℕ)
    (hdevice : ¬ (DecimalDigits e.major ∧ DecimalDigits e.minor)) :
    conversions (scanFrom total deviceFormat e.deviceField) < 3 := by
  have hhex : ∀ n : BitVec 32, ∀ c ∈ printNumeral 16 2 n.toNat, isDigitIn 16 c = true :=
    fun n c hc => isDigitIn_of_mem_printNumeral (by decide) (by decide) hc
  by_cases hmajor : DecimalDigits e.major
  · have hminor : ¬ DecimalDigits e.minor := fun hminor => hdevice ⟨hmajor, hminor⟩
    have hcolon : ∀ rest : List Char, ∀ c ∈ (':' :: rest).head?, EndsNumber 10 c := by
      intro rest c hc
      rw [← Option.some.inj hc]
      decide
    rw [deviceFormat, deviceField, scanFrom, readUnsigned_digits 32 (printNumeral_ne_nil _ _ _)
      hmajor (hcolon _)]
    simp only []
    rw [scanFrom, if_pos rfl, scanFrom]
    cases readUnsigned_larger_base 32 (by decide) (hhex e.minor) hminor
        (' ' :: (printNumeral 10 0 e.inode.toNat ++ e.nameField)) with
    | inl hnone => simp [hnone, conversions]
    | inr hsome =>
      obtain ⟨value, c, d, more, hd, hlarge, hread⟩ := hsome
      have hskip : skipSpaces (c :: more) = c :: more :=
        List.dropWhile_cons_of_neg (by simp [isSpace_of_digitValue hd])
      rw [hread]
      simp [scanFrom, hskip, readUnsigned_eq_none 64 (by decide) hd hlarge, conversions]
  · rw [deviceFormat, deviceField, scanFrom]
    cases readUnsigned_larger_base 32 (by decide) (hhex e.major) hmajor
        (':' :: (printNumeral 16 2 e.minor.toNat ++
          ' ' :: (printNumeral 10 0 e.inode.toNat ++ e.nameField))) with
    | inl hnone => simp [hnone, conversions]
    | inr hsome =>
      obtain ⟨value, c, d, more, hd, -, hread⟩ := hsome
      have hcolon : c ≠ ':' := by
        intro hc
        have hnone : digitValue ':' = none := by decide
        rw [hc, hnone] at hd
        exact absurd hd (by simp)
      rw [hread]
      simp [scanFrom, hcolon, conversions]

/-- The scan of the name records where it starts and where it ends, and only the end of the line
where there is none. -/
theorem scanFrom_name (total : ℕ) :
    scanFrom total nameFormat e.nameField =
      if e.name = [] then [.position total]
      else [.position (total - (e.name.length + 1)), .position (total - 1)] := by
  have hblank : ∀ c ∈ List.replicate (e.padding + 1) ' ', isSpace c = true := by
    intro c hc
    rw [List.eq_of_mem_replicate hc]
    decide
  rw [nameFormat, nameField, scanFrom]
  split_ifs with hname
  · rw [hname, List.nil_append, skipSpaces, List.dropWhile_append_of_pos hblank]
    simp [scanFrom, isSpace]
  · have hvisible : ∀ c ∈ (e.name ++ ['\n']).head?, isSpace c = false := by
      intro c hc
      rw [List.head?_append_of_ne_nil _ hname] at hc
      exact e.visibleName c hc
    have hline : ∀ c ∈ e.name, (c != '\n') = true := by
      intro c hc
      rw [bne_iff_ne]
      intro heq
      exact e.oneLine (heq ▸ hc)
    rw [skipSpaces_append hblank hvisible, scanFrom, scanFrom,
      List.takeWhile_append_of_pos hline, List.dropWhile_append_of_pos hline,
      if_neg (by simp [hname])]
    simp [scanFrom]

/-- A line ends with its name. -/
theorem exists_line_eq (width : ℕ) : ∃ front, e.line width = front ++ (e.name ++ ['\n']) := by
  refine ⟨printNumeral 16 width e.start.toNat ++ '-' :: (printNumeral 16 width e.stop.toNat ++
    ' ' :: (e.perms ++ ' ' :: (printNumeral 16 width e.offset.toNat ++ ' ' ::
    (printNumeral 16 2 e.major.toNat ++ ':' :: (printNumeral 16 2 e.minor.toNat ++ ' ' ::
    (printNumeral 10 0 e.inode.toNat ++ List.replicate (e.padding + 1) ' ')))))), ?_⟩
  simp [line, deviceField, nameField]

/-- The recorded positions cut the name out of the line. -/
theorem name_eq_of_positions (width : ℕ) :
    let recorded := positions (scanFrom (e.line width).length nameFormat e.nameField)
    (if recorded.getD 1 0 > recorded.getD 0 0 then
      ((e.line width).take (recorded.getD 1 0)).drop (recorded.getD 0 0) else []) = e.name := by
  obtain ⟨front, hfront⟩ := e.exists_line_eq width
  intro recorded
  have hrecorded : recorded = _ := congrArg positions (e.scanFrom_name (e.line width).length)
  rw [hrecorded, hfront]
  by_cases hname : e.name = []
  · simp [positions, hname]
  · have hpos : 0 < e.name.length := List.length_pos_iff.mpr hname
    have hstart : (front ++ (e.name ++ ['\n'])).length - (e.name.length + 1) = front.length := by
      simp
    have hstop : (front ++ (e.name ++ ['\n'])).length - 1 = front.length + e.name.length := by
      simp
    simp only [if_neg hname, positions, List.filterMap_cons, List.filterMap_nil, hstart, hstop,
      List.getD_cons_zero, List.getD_cons_succ]
    rw [if_pos (by omega), ← List.append_assoc,
      List.take_append_of_le_length (by simp), List.take_of_length_le (by simp),
      List.drop_left]

/-- The constructor undoes the printing of a line exactly for devices whose two numbers have
only decimal digits. On any other device it stops the process. -/
theorem ofLine_line_iff (width : ℕ) :
    MemorySegment.ofLine (e.line width) =
        .ok ⟨e.start, e.stop - 1, String.ofList e.name⟩ ↔
      DecimalDigits e.major ∧ DecimalDigits e.minor := by
  have hstored : scan mapsFormat (e.line width) = _ := e.scanFrom_line (e.line width).length width
  apply Iff.intro
  · intro hok
    by_contra hdevice
    have hfew : conversions (scan mapsFormat (e.line width)) < 7 := by
      have hdeviceEnds := e.conversions_device_lt (e.line width).length hdevice
      rw [hstored]
      simp only [conversions, List.countP_cons] at hdeviceEnds ⊢
      simp only [if_true]
      omega
    rw [MemorySegment.ofLine, if_pos hfew] at hok
    exact absurd hok (by simp)
  · intro hdevice
    obtain ⟨major, minor, hscan⟩ := e.scanFrom_device (e.line width).length hdevice.1 hdevice.2
    rw [hscan] at hstored
    have hname := e.name_eq_of_positions width
    have hmany : ¬ conversions (scan mapsFormat (e.line width)) < 7 := by
      rw [hstored]
      simp [conversions]
    have hstart : BitVec.ofNat 64 e.start.toNat = e.start := by simp
    have hstop : BitVec.ofNat 64 e.stop.toNat = e.stop := by simp
    rw [MemorySegment.ofLine, if_neg hmany, hstored]
    change Except.ok (MemorySegment.mk (.ofNat 64 e.start.toNat) (.ofNat 64 e.stop.toNat - 1)
      (String.ofList (if _ > _ then _ else _))) = _
    rw [hstart, hstop]
    exact congrArg
      (fun name => Except.ok (MemorySegment.mk e.start (e.stop - 1) (String.ofList name))) hname

/-- A read-write mapping without a name, on device 00:00. -/
def anonymousEntry : MapsEntry :=
  ⟨0x7f0000000000, 0x7f0000001000, ['r', 'w', '-', 'p'], 0, 0, 0, 0, 0, [], by decide, rfl,
    by simp [isSpace], by simp, by simp⟩

example : MemorySegment.ofLine (anonymousEntry.line 8) =
    .ok ⟨0x7f0000000000, 0x7f0000000fff, ""⟩ := by decide

/-- A program file on the block device fd:01. -/
def fileEntry : MapsEntry :=
  ⟨0x400000, 0x401000, ['r', '-', 'x', 'p'], 0, 0xfd, 1, 1835041, 27,
    ['/', 'b', 'i', 'n', '/', 'a'], by decide, rfl, by simp [isSpace], by simp, by simp [isSpace]⟩

/-- The line of a file on that device stops the process. -/
theorem ofLine_line_fileEntry :
    String.ofList (fileEntry.line 8) =
        "00400000-00401000 r-xp 00000000 fd:01 1835041                            /bin/a\n" ∧
      MemorySegment.ofLine (fileEntry.line 8) = .error (.died "FAILED TO PARSE") ∧
      MemorySegment.ofLine (fileEntry.line 8) ≠ .ok ⟨0x400000, 0x400fff, "/bin/a"⟩ := by
  decide

end MapsEntry

end Bwap
