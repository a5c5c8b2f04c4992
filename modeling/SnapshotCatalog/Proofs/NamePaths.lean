import SnapshotCatalog.Proofs.Keys
import SnapshotCatalog.Proofs.Paths
/-!
Names and the paths of definitions. What is accepted as a name is accepted in a path as well, apart from
the 32 controls that follow the ASCII characters: names may hold them, and paths may not. So whether the
path of a definition is accepted depends on the names in it alone.
-/
namespace SnapshotCatalog

/-! ### Characters -/

/-- Whether a character is one of the 32 controls that follow the ASCII characters. -/
def Name.isHighControl (c : Char) : Bool := 0x80 ≤ c.toNat && c.toNat ≤ 0x9f

/-- Among the controls that paths refuse, names may hold the high ones only. -/
theorem Name.isControl_eq {c : Char} (h : isReserved c = false) :
    Path.isControl c = isHighControl c := by
  simp only [isReserved, Bool.or_eq_false_iff, decide_eq_false_iff_not, beq_eq_false_iff_ne] at h
  rw [Bool.eq_iff_iff]
  simp only [Path.isControl, isHighControl, Bool.or_eq_true, Bool.and_eq_true, decide_eq_true_eq]
  omega

theorem Name.Accepted.any_isControl {limit : Nat} {name : String} (h : Accepted limit name) :
    name.toList.any Path.isControl = name.toList.any isHighControl := by
  rw [Bool.eq_iff_iff, List.any_eq_true, List.any_eq_true]
  exact exists_congr fun c => and_congr_right fun hc => by rw [isControl_eq (h.allowed c hc).1]

theorem Path.isPlain_iff {c : Char} :
    isPlain c = true ↔ Name.isPathCharacter c = false ∧ isControl c = false := by
  rw [isPlain, Name.isPathCharacter]
  cases isControl c <;> simp [bne, and_assoc]

theorem Path.isPlain_of_mem_dash {c : Char} (h : c ∈ "-".toList) : isPlain c = true := by
  have hDash : ∀ c ∈ "-".toList, isPlain c = true := List.all_eq_true.mp (by decide)
  exact hDash c h

/-- What holds of the hexadecimal digits and of the dash holds of the characters of all identifiers. -/
theorem Uuid.forall_mem_text {p : Char → Prop} (hDigits : ∀ n < 16, p n.digitChar) (hDash : p '-')
    {id : Uuid} {c : Char} (h : c ∈ id.text.toList) : p c := by
  have hDigit (start count : Nat) (hc : c ∈ id.digits start count) : p c := by
    obtain ⟨i, -, rfl⟩ := List.mem_map.mp hc
    exact hDigits _ (Nat.mod_lt _ (by decide))
  simp only [text, String.toList_ofList, List.mem_append, List.mem_cons] at h
  rcases h with (((h | rfl | h) | rfl | h) | rfl | h) | rfl | h
  · exact hDigit _ _ h
  · exact hDash
  · exact hDigit _ _ h
  · exact hDash
  · exact hDigit _ _ h
  · exact hDash
  · exact hDigit _ _ h
  · exact hDash
  · exact hDigit _ _ h

/-- The text of an identifier holds nothing that a rule about paths looks at. -/
theorem Uuid.isPlain_of_mem_text {id : Uuid} {c : Char} (h : c ∈ id.text.toList) :
    Path.isPlain c = true :=
  forall_mem_text (p := fun c => Path.isPlain c = true) (by decide) (by decide) h

/-- A control is what is wrong with a path that breaks none of the rules that are looked at first. -/
theorem Path.fault?_eq_control {path : String} {start : Char} {rest : List Char}
    (hPath : path.toList = start :: rest) (hStart : start ≠ '/') (hBackslash : '\\' ∉ path.toList)
    (hPercent : '%' ∉ path.toList) (hControl : path.toList.any isControl = true) :
    fault? path = some (.control path) := by
  have hEmpty : path.toList.isEmpty = false := by
    rw [hPath]
    rfl
  have hHead : path.toList.head? ≠ some '/' := by
    rw [hPath]
    exact fun h => hStart (Option.some.inj h)
  simp only [fault?, hEmpty, hHead, List.contains_iff_mem, hBackslash, hPercent, hControl,
    Bool.false_eq_true, if_false, if_true]

/-! ### Files and their directories -/

namespace DefinitionPath

theorem length_hashBits (name : String) : (hashBits name).length = 20 := by
  simp [hashBits]

theorem isPlain_of_mem_hashBits {name : String} {c : Char} (h : c ∈ hashBits name) :
    Path.isPlain c = true := by
  obtain ⟨i, -, rfl⟩ := List.mem_map.mp h
  split <;> decide

theorem toList_path (file : String) :
    (directories file ++ "-" ++ file).toList =
      (hashBits file).take 4 ++ '/' :: (((hashBits file).drop 4).take 4 ++
        '/' :: (((hashBits file).drop 8).take 4 ++
          '/' :: ((hashBits file).drop 12 ++ '-' :: file.toList))) := by
  simp [directories]

/-- The segments of the path of a file: three directories, and the file. -/
theorem segments_eq {file : String} (h : '/' ∉ file.toList) :
    Path.segments (directories file ++ "-" ++ file).toList =
      [(hashBits file).take 4, ((hashBits file).drop 4).take 4, ((hashBits file).drop 8).take 4,
        (hashBits file).drop 12 ++ '-' :: file.toList] := by
  have hBits : '/' ∉ hashBits file := Path.not_mem_of_plain fun _ => isPlain_of_mem_hashBits
  have hMiddle (n : Nat) : '/' ∉ ((hashBits file).drop n).take 4 := fun hc =>
    hBits (List.mem_of_mem_drop (List.mem_of_mem_take hc))
  have hLast : '/' ∉ (hashBits file).drop 12 ++ '-' :: file.toList := by
    intro hc
    rcases List.mem_append.mp hc with hc | hc
    · exact hBits (List.mem_of_mem_drop hc)
    · rcases List.mem_cons.mp hc with hc | hc
      · exact absurd hc (by decide)
      · exact h hc
  rw [toList_path, Path.segments_append fun hc => hBits (List.mem_of_mem_take hc),
    Path.segments_append (hMiddle 4), Path.segments_append (hMiddle 8),
    Path.segments_of_not_mem hLast]

/-- The segments of the path of a file with a plain name are plain. -/
theorem segments_path {file : String} (h : ∀ c ∈ file.toList, Path.isPlain c = true) :
    ∀ segment ∈ Path.segments (directories file ++ "-" ++ file).toList,
      2 < segment.length ∧ ∀ c ∈ segment, Path.isPlain c = true := by
  have hLength := length_hashBits file
  intro segment hMem
  rw [segments_eq (Path.not_mem_of_plain h)] at hMem
  simp only [List.mem_cons, List.not_mem_nil, or_false] at hMem
  rcases hMem with rfl | rfl | rfl | rfl
  · exact ⟨by simp [hLength], fun c hc => isPlain_of_mem_hashBits (List.mem_of_mem_take hc)⟩
  · exact ⟨by simp [hLength], fun c hc =>
      isPlain_of_mem_hashBits (List.mem_of_mem_drop (List.mem_of_mem_take hc))⟩
  · exact ⟨by simp [hLength], fun c hc =>
      isPlain_of_mem_hashBits (List.mem_of_mem_drop (List.mem_of_mem_take hc))⟩
  · refine ⟨?_, fun c hc => ?_⟩
    · simp only [List.length_append, List.length_drop, hLength]
      omega
    · rcases List.mem_append.mp hc with hc | hc
      · exact isPlain_of_mem_hashBits (List.mem_of_mem_drop hc)
      · rcases List.mem_cons.mp hc with rfl | hc
        · decide
        · exact h c hc

/-- The directories of a file bring nothing but plain characters and slashes to its path. -/
theorem mem_path {file : String} {c : Char} (h : c ∈ (directories file ++ "-" ++ file).toList) :
    c = '/' ∨ Path.isPlain c = true ∨ c ∈ file.toList := by
  have hBits {c : Char} (hc : c ∈ hashBits file) : Path.isPlain c = true := isPlain_of_mem_hashBits hc
  rw [toList_path] at h
  simp only [List.mem_append, List.mem_cons] at h
  rcases h with h | rfl | h | rfl | h | rfl | h | rfl | h
  · exact .inr (.inl (hBits (List.mem_of_mem_take h)))
  · exact .inl rfl
  · exact .inr (.inl (hBits (List.mem_of_mem_drop (List.mem_of_mem_take h))))
  · exact .inl rfl
  · exact .inr (.inl (hBits (List.mem_of_mem_drop (List.mem_of_mem_take h))))
  · exact .inl rfl
  · exact .inr (.inl (hBits (List.mem_of_mem_drop h)))
  · exact .inr (.inl rfl)
  · exact .inr (.inr h)

theorem exists_start (file : String) : ∃ start rest,
    (directories file ++ "-" ++ file).toList = start :: rest ∧ start ≠ '/' := by
  obtain ⟨start, rest, hBits⟩ : ∃ start rest, hashBits file = start :: rest :=
    List.exists_cons_of_length_pos (by simp [length_hashBits])
  refine ⟨start, _, by rw [toList_path, hBits]; rfl, ?_⟩
  · have hPlain : Path.isPlain start = true :=
      isPlain_of_mem_hashBits (hBits ▸ List.mem_cons_self)
    rintro rfl
    exact absurd hPlain (by decide)

/-- The path of a file without characters that paths give a meaning is refused for the controls in the
name of the file, and for nothing else. -/
theorem check_file {file : String} (h : ∀ c ∈ file.toList, Name.isPathCharacter c = false) :
    Path.check (directories file ++ "-" ++ file) =
      if file.toList.any Path.isControl then
        .error (.invalidArgument (.path (.control (directories file ++ "-" ++ file))))
      else .ok () := by
  split
  · next hAny =>
    obtain ⟨start, rest, hPath, hStart⟩ := exists_start file
    have hAbsent {c : Char} (hSlash : c ≠ '/') (hPlain : Path.isPlain c = false)
        (hMeant : Name.isPathCharacter c = true) : c ∉ (directories file ++ "-" ++ file).toList := by
      intro hc
      rcases mem_path hc with rfl | hOther | hFile
      · exact hSlash rfl
      · exact absurd (hOther.symm.trans hPlain) (by decide)
      · exact absurd (hMeant.symm.trans (h c hFile)) (by decide)
    have hControl : (directories file ++ "-" ++ file).toList.any Path.isControl = true := by
      rw [String.toList_append, List.any_append, hAny, Bool.or_true]
    rw [Path.check, Path.fault?_eq_control hPath hStart (hAbsent (by decide) (by decide) (by decide))
      (hAbsent (by decide) (by decide) (by decide)) hControl]
  · next hNone =>
    refine Path.check_of_segments (segments_path fun c hc => Path.isPlain_iff.mpr ⟨h c hc, ?_⟩)
    exact Bool.eq_false_iff.mpr fun hControl => hNone (List.any_eq_true.mpr ⟨c, hc, hControl⟩)

/-- How the names of files of definitions end. -/
theorem isPlain_of_mem_tail {id : Uuid} {c : Char} (h : c ∈ (id.text ++ suffix).toList) :
    Path.isPlain c = true := by
  have hSuffix : ∀ c ∈ suffix.toList, Path.isPlain c = true := List.all_eq_true.mp (by decide)
  rw [String.toList_append] at h
  rcases List.mem_append.mp h with h | h
  · exact Uuid.isPlain_of_mem_text h
  · exact hSuffix c h

/-- How the names of files end that are named for an object. -/
theorem isPlain_of_mem_fileTail {id : Uuid} {c : Char} (h : c ∈ ("-" ++ (id.text ++ suffix)).toList) :
    Path.isPlain c = true := by
  rw [String.toList_append] at h
  rcases List.mem_append.mp h with h | h
  · exact Path.isPlain_of_mem_dash h
  · exact isPlain_of_mem_tail h

theorem isPlain_of_mem_ofLakehouse {id : Uuid} {c : Char} (hc : c ∈ (ofLakehouse id).toList) :
    Path.isPlain c = true := by
  have hStart : ∀ c ∈ lakehouseStart.toList, Path.isPlain c = true :=
    List.all_eq_true.mp (by decide)
  rw [ofLakehouse, String.append_assoc, String.toList_append] at hc
  rcases List.mem_append.mp hc with hc | hc
  · exact hStart c hc
  · exact isPlain_of_mem_tail hc

/-- Paths of lakehouse definitions are accepted wherever the lakehouse lies. -/
theorem check_ofLakehouse (id : Uuid) : Path.check (ofLakehouse id) = .ok () := by
  apply Path.check_of_plain fun _ => isPlain_of_mem_ofLakehouse
  rw [ofLakehouse, String.append_assoc, String.toList_append, String.toList_append,
    List.length_append, List.length_append, Uuid.length_text]
  omega

end DefinitionPath

/-! ### Objects -/

namespace Slot

/-- The path of an object's definition, for an identifier. -/
def path : Slot → Uuid → String
  | ofNamespace ns => DefinitionPath.ofNamespace ns
  | ofTable ns table => DefinitionPath.ofTable ns table

/-- The names of an object. -/
def names : Slot → List String
  | ofNamespace ns => [ns]
  | ofTable ns table => [ns, table]

/-- How the name of the file of an object's definition begins: with the names of the object. -/
def front : Slot → String
  | ofNamespace ns => ns
  | ofTable ns table => ns ++ ("-" ++ table)

/-- The name of the file of an object's definition, for an identifier. -/
def file (slot : Slot) (id : Uuid) : String :=
  slot.front ++ ("-" ++ (id.text ++ DefinitionPath.suffix))

/-- Whether a name of an object holds a high control. -/
def hasHighControl (slot : Slot) : Bool :=
  slot.names.any fun name => name.toList.any Name.isHighControl

theorem path_eq (slot : Slot) (id : Uuid) :
    slot.path id = DefinitionPath.directories (slot.file id) ++ "-" ++ slot.file id := by
  cases slot with
  | ofNamespace ns =>
      show DefinitionPath.directories (ns ++ "-" ++ id.text ++ DefinitionPath.suffix) ++ "-" ++
        (ns ++ "-" ++ id.text ++ DefinitionPath.suffix) = _
      simp only [file, front, String.append_assoc]
  | ofTable ns table =>
      show DefinitionPath.directories (ns ++ "-" ++ table ++ "-" ++ id.text ++ DefinitionPath.suffix) ++
        "-" ++ (ns ++ "-" ++ table ++ "-" ++ id.text ++ DefinitionPath.suffix) = _
      simp only [file, front, String.append_assoc]

variable {limits : KeyLimits} {slot : Slot}

/-- Accepted names bring no character with them that paths give a meaning. -/
theorem Accepted.front_allowed (h : slot.Accepted limits) :
    ∀ c ∈ slot.front.toList, Name.isPathCharacter c = false := by
  intro c hc
  cases slot with
  | ofNamespace ns => exact (h.allowed c hc).2
  | ofTable ns table =>
      simp only [front, String.toList_append, List.mem_append] at hc
      rcases hc with hc | hc | hc
      · exact (h.1.allowed c hc).2
      · exact (Path.isPlain_iff.mp (Path.isPlain_of_mem_dash hc)).1
      · exact (h.2.allowed c hc).2

theorem Accepted.file_allowed (h : slot.Accepted limits) (id : Uuid) :
    ∀ c ∈ (slot.file id).toList, Name.isPathCharacter c = false := by
  intro c hc
  rw [file, String.toList_append] at hc
  rcases List.mem_append.mp hc with hc | hc
  · exact h.front_allowed c hc
  · exact (Path.isPlain_iff.mp (DefinitionPath.isPlain_of_mem_fileTail hc)).1

theorem Accepted.any_isControl_front (h : slot.Accepted limits) :
    slot.front.toList.any Path.isControl = slot.hasHighControl := by
  have hDash : "-".toList.any Path.isControl = false := by decide
  cases slot with
  | ofNamespace ns =>
      rw [front, Name.Accepted.any_isControl h, hasHighControl, names, List.any_cons, List.any_nil,
        Bool.or_false]
  | ofTable ns table =>
      rw [front, String.toList_append, String.toList_append, List.any_append, List.any_append, hDash,
        h.1.any_isControl, h.2.any_isControl, Bool.false_or, hasHighControl, names, List.any_cons,
        List.any_cons, List.any_nil, Bool.or_false]

theorem Accepted.any_isControl_file (h : slot.Accepted limits) (id : Uuid) :
    (slot.file id).toList.any Path.isControl = slot.hasHighControl := by
  have hTail : ("-" ++ (id.text ++ DefinitionPath.suffix)).toList.any Path.isControl = false :=
    List.any_eq_false.mpr fun c hc =>
      Bool.eq_false_iff.mp (Path.isPlain_iff.mp (DefinitionPath.isPlain_of_mem_fileTail hc)).2
  rw [file, String.toList_append, List.any_append, hTail, Bool.or_false, h.any_isControl_front]

/-- The path of a definition is refused exactly for a high control in a name of the object. -/
theorem check_path (h : slot.Accepted limits) (id : Uuid) :
    Path.check (slot.path id) =
      if slot.hasHighControl then .error (.invalidArgument (.path (.control (slot.path id))))
      else .ok () := by
  rw [slot.path_eq, DefinitionPath.check_file (h.file_allowed id), h.any_isControl_file]

/-- Whether the path of a definition is accepted does not depend on the identifier. -/
theorem check_path_congr (h : slot.Accepted limits) (id other : Uuid) :
    Path.check (slot.path id) = .ok () ↔ Path.check (slot.path other) = .ok () := by
  rw [check_path h, check_path h]
  cases slot.hasHighControl <;> simp

end Slot

end SnapshotCatalog
