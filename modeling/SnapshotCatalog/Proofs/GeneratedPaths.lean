import SnapshotCatalog.Proofs.NamePaths
import SnapshotCatalog.Proofs.VersionPaths
/-!
Paths of definitions under any hash. The hash only scatters files: whatever function of the bytes of a name it
is, the path of an object spells 20 of its bits over three directories and ends with the identifier, and the
identifier alone keeps paths apart. Names do not, since joining them with dashes makes one name of many.
-/
namespace SnapshotCatalog.DefinitionPath

/-! ### Directories -/

/-- The lower 20 bits of a hash, the most significant first. -/
def bitsOf (h : UInt32) : List Char :=
  (List.range 20).map fun i => if h.toNat.testBit (19 - i) then '1' else '0'

/-- The directories that a hash spells, and the digits that begin the file name. -/
def directoriesOf (h : UInt32) : String :=
  String.ofList ((bitsOf h).take 4 ++ '/' :: ((bitsOf h).drop 4).take 4 ++
    '/' :: ((bitsOf h).drop 8).take 4 ++ '/' :: (bitsOf h).drop 12)

/-- Three directories of four binary digits and eight more digits, which spell a number. -/
def Scatters (n : Nat) (front : String) : Prop :=
  ∃ first second third last : List Char,
    first.length = 4 ∧ second.length = 4 ∧ third.length = 4 ∧ last.length = 8 ∧
      (∀ c ∈ first ++ second ++ third ++ last, c = '0' ∨ c = '1') ∧
      Numeral.readBits 0 (first ++ second ++ third ++ last) = .ok n ∧
      front.toList = first ++ '/' :: second ++ '/' :: third ++ '/' :: last

theorem Scatters.length_eq {n : Nat} {front : String} (h : Scatters n front) :
    front.toList.length = 23 := by
  obtain ⟨first, second, third, last, hFirst, hSecond, hThird, hLast, -, -, hFront⟩ := h
  rw [hFront]
  simp [hFirst, hSecond, hThird, hLast]

theorem length_bitsOf (h : UInt32) : (bitsOf h).length = 20 := by
  simp [bitsOf]

theorem mem_bitsOf {h : UInt32} {c : Char} (hc : c ∈ bitsOf h) : c = '0' ∨ c = '1' := by
  obtain ⟨i, -, rfl⟩ := List.mem_map.mp hc
  split
  · exact .inr rfl
  · exact .inl rfl

/-- The bits of a hash are read as its lower 20 bits. -/
theorem readBits_bitsOf (h : UInt32) : Numeral.readBits 0 (bitsOf h) = .ok (h.toNat % 2 ^ 20) := by
  let bits : List Bool := (List.range 20).map h.toNat.testBit
  have hBits : bitsOf h = (bits.map RootPath.digit).reverse := rfl
  have hBytes : bits.map RootPath.digitByte = RootPath.digitBytesOf 20 h.toNat := rfl
  rw [hBits, Numeral.readBits_reverse (by simp [bits]), hBytes, RootPath.valueOf_digitBytesOf]

theorem scatters_directoriesOf (h : UInt32) : Scatters (h.toNat % 2 ^ 20) (directoriesOf h) := by
  have hLength := length_bitsOf h
  have hParts : (bitsOf h).take 4 ++ ((bitsOf h).drop 4).take 4 ++ ((bitsOf h).drop 8).take 4 ++
      (bitsOf h).drop 12 = bitsOf h := rfl
  refine ⟨(bitsOf h).take 4, ((bitsOf h).drop 4).take 4, ((bitsOf h).drop 8).take 4, (bitsOf h).drop 12,
    by simp [hLength], by simp [hLength], by simp [hLength], by simp [hLength], ?_, ?_,
    String.toList_ofList⟩
  · rw [hParts]
    exact fun _ => mem_bitsOf
  · rw [hParts, readBits_bitsOf]

/-! ### Paths -/

/-- What a definition is of. -/
inductive Subject where
  | lakehouse
  | object (slot : Slot)

/-- The name of the file of an object's definition. -/
def nameOf (slot : Slot) (id : Uuid) : String := String.intercalate "-" (slot.names ++ [id.text]) ++ suffix

/-- The path of a file with a name, below the directories of a hash of its bytes. -/
def pathOf (hash : List UInt8 → UInt32) (name : String) : String :=
  directoriesOf (hash (Text.bytes name)) ++ "-" ++ name

/-- The path of a definition, for an identifier, when files are scattered by a hash. -/
def Subject.path (hash : List UInt8 → UInt32) : Subject → Uuid → String
  | lakehouse, id => ofLakehouse id
  | object slot, id => pathOf hash (nameOf slot id)

theorem nameOf_eq (slot : Slot) (id : Uuid) : nameOf slot id = slot.file id := by
  cases slot with
  | ofNamespace ns =>
      show ns ++ "-" ++ id.text ++ suffix = _
      simp only [Slot.file, Slot.front, String.append_assoc]
  | ofTable ns table =>
      show ns ++ "-" ++ table ++ "-" ++ id.text ++ suffix = _
      simp only [Slot.file, Slot.front, String.append_assoc]

theorem Subject.bears_path (hash : List UInt8 → UInt32) (subject : Subject) (id : Uuid) :
    Bears id (subject.path hash id) := by
  cases subject with
  | lakehouse => exact bears_ofLakehouse id
  | object slot =>
      refine ⟨directoriesOf (hash (Text.bytes (nameOf slot id))) ++ "-" ++ (slot.front ++ "-"), ?_⟩
      show directoriesOf _ ++ "-" ++ nameOf slot id = _
      rw [nameOf_eq, Slot.file]
      simp only [String.append_assoc]

/-- What an object is named shows in its path only as the joined names. -/
theorem path_eq_of_front {slot other : Slot} (h : slot.front = other.front) (id : Uuid) :
    slot.path id = other.path id := by
  rw [slot.path_eq, other.path_eq, Slot.file, Slot.file, h]

/-- Generated paths never collide, whichever function of the bytes of a name the hash is. Paths made with
different identifiers are different, whatever they are paths of and however it is named; none of them is the
path of a root or of the hint; and the path of an object is 23 characters of directories and digits, which
spell the lower 20 bits of the hash, a dash, and the joined name. Under the hash of this library, these are
the paths that definitions are given. -/
theorem never_collide (hash : List UInt8 → UInt32) :
    (∀ (subject other : Subject) (id id' : Uuid), id ≠ id' → subject.path hash id ≠ other.path hash id') ∧
      (∀ (subject : Subject) (id : Uuid),
        (∀ v, subject.path hash id ≠ RootPath.ofVersion v) ∧ subject.path hash id ≠ Hint.path) ∧
      (∀ (slot : Slot) (id : Uuid), ∃ front,
        Scatters ((hash (Text.bytes (nameOf slot id))).toNat % 2 ^ 20) front ∧
        front.toList.length = 23 ∧ id.text.toList.length = 36 ∧
        (Subject.object slot).path hash id =
          front ++ "-" ++ (String.intercalate "-" (slot.names ++ [id.text]) ++ suffix)) ∧
      ∀ (ns table : String) (id : Uuid),
        Subject.lakehouse.path Hash.hash id = ofLakehouse id ∧
        (Subject.object (.ofNamespace ns)).path Hash.hash id = ofNamespace ns id ∧
        (Subject.object (.ofTable ns table)).path Hash.hash id = ofTable ns table id := by
  refine ⟨fun subject other id id' hOther hSame => ?_, fun subject id => ?_, fun slot id => ?_,
    fun ns table id => ⟨rfl, rfl, rfl⟩⟩
  · have hBears := subject.bears_path hash id
    rw [hSame] at hBears
    exact hOther (hBears.unique (other.bears_path hash id'))
  · have hBears := subject.bears_path hash id
    exact ⟨hBears.ne_root, hBears.ne_hint⟩
  · have hScatters := scatters_directoriesOf (hash (Text.bytes (nameOf slot id)))
    exact ⟨_, hScatters, hScatters.length_eq, id.length_text, rfl⟩

/-- Joining names is ambiguous: a namespace and two tables have one path for an identifier. For different
identifiers they have different ones. -/
theorem never_collide_ambiguous :
    ofNamespace "a-b-c" ⟨1⟩ = ofTable "a" "b-c" ⟨1⟩ ∧ ofTable "a-b" "c" ⟨1⟩ = ofTable "a" "b-c" ⟨1⟩ ∧
      (⟨1⟩ : Uuid) ≠ ⟨2⟩ ∧ ofNamespace "a-b-c" ⟨1⟩ ≠ ofTable "a" "b-c" ⟨2⟩ ∧
      ofTable "a-b" "c" ⟨1⟩ ≠ ofTable "a" "b-c" ⟨2⟩ := by
  obtain ⟨hApart, -, -, hPaths⟩ := never_collide Hash.hash
  have hOther : (⟨1⟩ : Uuid) ≠ ⟨2⟩ := by decide
  have hNamespace : (Slot.ofNamespace "a-b-c").front = (Slot.ofTable "a" "b-c").front := by decide
  have hTable : (Slot.ofTable "a-b" "c").front = (Slot.ofTable "a" "b-c").front := by decide
  refine ⟨path_eq_of_front hNamespace ⟨1⟩, path_eq_of_front hTable ⟨1⟩, hOther, ?_, ?_⟩
  · rw [← (hPaths "a-b-c" "" ⟨1⟩).2.1, ← (hPaths "a" "b-c" ⟨2⟩).2.2]
    exact hApart _ _ _ _ hOther
  · rw [← (hPaths "a-b" "c" ⟨1⟩).2.2, ← (hPaths "a" "b-c" ⟨2⟩).2.2]
    exact hApart _ _ _ _ hOther

end SnapshotCatalog.DefinitionPath
