import Mathlib.Algebra.Group.Int.Defs
import SnapshotCatalog.Transaction
import SnapshotCatalog.Proofs.Names
/-!
Identifiers of transactions, their texts and their times. A text of an id has 26 digits to base 32, two bits
more than an id has, so it spells the id and no text that begins with a digit from 8 on does. Digits are in
byte order of their characters and texts have one length, so texts are in the order of ids, which is the
order of times and then of the bits below them. No time has more than 48 bits, so a calendar that knows all
such times always has a moment for it.
-/
namespace SnapshotCatalog.TransactionId

/-! ### Numbers to base 32 -/

/-- The number that digits spell, the most significant first. -/
def valueOf (digits : List Nat) : Nat := digits.foldl (fun value d => value * 32 + d) 0

/-- The last `count` digits of a number, the most significant first. -/
def digitsOf : Nat → Nat → List Nat
  | 0, _ => []
  | count + 1, n => n / 32 ^ count % 32 :: digitsOf count n

theorem foldl_digits (value : Nat) (digits : List Nat) :
    digits.foldl (fun value d => value * 32 + d) value = value * 32 ^ digits.length + valueOf digits := by
  induction digits generalizing value with
  | nil => simp [valueOf]
  | cons d digits ih =>
      rw [valueOf, List.foldl_cons, List.foldl_cons, ih, ih (0 * 32 + d), List.length_cons, Nat.pow_succ]
      simp only [Nat.add_mul, Nat.zero_mul, Nat.mul_assoc, Nat.mul_comm 32, Nat.zero_add]
      omega

theorem valueOf_cons (d : Nat) (digits : List Nat) :
    valueOf (d :: digits) = d * 32 ^ digits.length + valueOf digits := by
  rw [valueOf, List.foldl_cons, foldl_digits, Nat.zero_mul, Nat.zero_add]

@[simp] theorem length_digitsOf (count n : Nat) : (digitsOf count n).length = count := by
  induction count with
  | zero => rfl
  | succ count ih => rw [digitsOf, List.length_cons, ih]

theorem lt_of_mem_digitsOf {count n d : Nat} (h : d ∈ digitsOf count n) : d < 32 := by
  induction count with
  | zero => cases h
  | succ count ih =>
      rcases List.mem_cons.mp h with rfl | h
      · exact Nat.mod_lt _ (by decide)
      · exact ih h

theorem valueOf_digitsOf (count n : Nat) : valueOf (digitsOf count n) = n % 32 ^ count := by
  induction count with
  | zero => rw [Nat.pow_zero, Nat.mod_one]; rfl
  | succ count ih =>
      rw [digitsOf, valueOf_cons, ih, length_digitsOf, Nat.mod_pow_succ, Nat.mul_comm, Nat.add_comm]

section Digits

variable {digits others : List Nat} (hDigits : ∀ d ∈ digits, d < 32)

include hDigits

theorem valueOf_lt : valueOf digits < 32 ^ digits.length := by
  induction digits with
  | nil => decide
  | cons d digits ih =>
      obtain ⟨hFirst, hRest⟩ := List.forall_mem_cons.mp hDigits
      have hBound := Nat.mul_le_mul_right (32 ^ digits.length) (Nat.succ_le_of_lt hFirst)
      rw [Nat.succ_mul] at hBound
      rw [valueOf_cons, List.length_cons, Nat.pow_succ, Nat.mul_comm _ 32]
      exact Nat.lt_of_lt_of_le (Nat.add_lt_add_left (ih hRest) _) hBound

/-- Of two numbers with equally many digits, the first differing digit tells the smaller. -/
theorem valueOf_lt_of_lt (hLength : digits.length = others.length) (h : digits < others) :
    valueOf digits < valueOf others := by
  induction digits generalizing others with
  | nil =>
      obtain rfl := List.length_eq_zero_iff.mp hLength.symm
      exact absurd h (List.lt_irrefl _)
  | cons d digits ih =>
      cases others with
      | nil => cases hLength
      | cons e others =>
          have hTails : digits.length = others.length := Nat.succ.inj hLength
          have hRest := (List.forall_mem_cons.mp hDigits).2
          rw [valueOf_cons, valueOf_cons, ← hTails]
          rcases List.cons_lt_cons_iff.mp h with hLess | ⟨rfl, hLess⟩
          · have hBound := Nat.mul_le_mul_right (32 ^ digits.length) (Nat.succ_le_of_lt hLess)
            rw [Nat.succ_mul] at hBound
            have hTail := valueOf_lt hRest
            omega
          · exact Nat.add_lt_add_left (ih hRest hTails hLess) _

variable (hOthers : ∀ d ∈ others, d < 32) (hLength : digits.length = others.length)

include hOthers hLength

/-- Numbers with equally many digits are in the order of their digits. The order of digits is total, so
digits that do not come first are the other ones or come after them, and so are their numbers. -/
theorem valueOf_lt_iff : valueOf digits < valueOf others ↔ digits < others := by
  refine ⟨fun hLess => ?_, valueOf_lt_of_lt hDigits hLength⟩
  refine Decidable.byContradiction fun hNot => ?_
  by_cases hAfter : others < digits
  · exact absurd (valueOf_lt_of_lt hOthers hLength.symm hAfter) (Nat.lt_asymm hLess)
  · obtain rfl := List.le_antisymm (List.not_lt.mp hAfter) (List.not_lt.mp hNot)
    exact absurd hLess (Nat.lt_irrefl _)

theorem eq_of_valueOf_eq (h : valueOf digits = valueOf others) : digits = others := by
  have hNot : ¬ digits < others := fun hLess =>
    Nat.ne_of_lt ((valueOf_lt_iff hDigits hOthers hLength).mpr hLess) h
  have hNot' : ¬ others < digits := fun hLess =>
    Nat.ne_of_lt ((valueOf_lt_iff hOthers hDigits hLength.symm).mpr hLess) h.symm
  exact List.le_antisymm (List.not_lt.mp hNot') (List.not_lt.mp hNot)

end Digits

/-- Digits are those of a number exactly if they spell its remainder. -/
theorem digitsOf_eq_iff {digits : List Nat} (hDigits : ∀ d ∈ digits, d < 32) (n : Nat) :
    digitsOf digits.length n = digits ↔ n % 32 ^ digits.length = valueOf digits := by
  rw [← valueOf_digitsOf]
  exact ⟨congrArg valueOf,
    eq_of_valueOf_eq (fun _ => lt_of_mem_digitsOf) hDigits (length_digitsOf _ n)⟩

/-! ### Characters of digits -/

/-- The character of a digit. -/
def symbol (d : Nat) : Char := alphabet.getD d '0'

theorem symbol_facts : ∀ d < 32, (symbol d).toNat < 0x80 ∧ (symbol d).toUpper = symbol d ∧
    alphabet.idxOf? (symbol d) = some d := by
  decide +kernel

/-- Digits are in the order of their characters. -/
theorem symbol_lt_iff : ∀ d < 32, ∀ e < 32,
    ((UInt8.ofNat (symbol d).toNat < UInt8.ofNat (symbol e).toNat) ↔ d < e) := by
  decide +kernel

/-- The text of digits. -/
def spell (digits : List Nat) : String := String.ofList (digits.map symbol)

section Spelling

variable {digits others : List Nat} (hDigits : ∀ d ∈ digits, d < 32)

include hDigits

theorem map_idxOf?_spell : (spell digits).toList.map (fun c => alphabet.idxOf? c) = digits.map some := by
  rw [spell, String.toList_ofList, List.map_map]
  exact List.map_congr_left fun d hd => (symbol_facts d (hDigits d hd)).2.2

theorem toUpper_spell : (spell digits).toUpper = spell digits := by
  rw [String.toUpper, ← String.toList_inj, String.toList_map, spell, String.toList_ofList, List.map_map]
  exact List.map_congr_left fun d hd => (symbol_facts d (hDigits d hd)).2.1

theorem bytes_spell :
    Text.bytes (spell digits) = digits.map fun d => UInt8.ofNat (symbol d).toNat := by
  have hAscii : ∀ c ∈ digits.map symbol, c.toNat < 0x80 := by
    intro c hc
    obtain ⟨d, hd, rfl⟩ := List.mem_map.mp hc
    exact (symbol_facts d (hDigits d hd)).1
  rw [spell, Text.bytes_ofList_of_ascii hAscii, List.map_map]
  rfl

variable (hOthers : ∀ d ∈ others, d < 32)

include hOthers

theorem spell_inj : spell digits = spell others ↔ digits = others := by
  refine ⟨fun h => ?_, congrArg spell⟩
  have hSome : digits.map some = others.map some := by
    rw [← map_idxOf?_spell hDigits, ← map_idxOf?_spell hOthers, h]
  exact (List.map_inj_right fun _ _ => Option.some.inj).mp hSome

/-- Texts of digits are in the order of the digits. -/
theorem before_spell_iff : Text.Before (spell digits) (spell others) ↔ digits < others := by
  rw [Text.Before, bytes_spell hDigits, bytes_spell hOthers]
  induction digits generalizing others with
  | nil =>
      cases others with
      | nil => exact iff_of_false (List.lt_irrefl _) (List.lt_irrefl _)
      | cons e others => exact iff_of_true (List.nil_lt_cons _ _) (List.nil_lt_cons _ _)
  | cons d digits ih =>
      cases others with
      | nil => exact iff_of_false (List.not_lt_nil _) (List.not_lt_nil _)
      | cons e others =>
          obtain ⟨hFirst, hRest⟩ := List.forall_mem_cons.mp hDigits
          obtain ⟨hFirst', hRest'⟩ := List.forall_mem_cons.mp hOthers
          have hLess := symbol_lt_iff d hFirst e hFirst'
          have hMore := symbol_lt_iff e hFirst' d hFirst
          rw [List.map_cons, List.map_cons, List.cons_lt_cons_iff, List.cons_lt_cons_iff, hLess,
            ih hRest hRest']
          refine or_congr_right (and_congr_left fun _ => ⟨fun hSame => ?_, fun hSame => hSame ▸ rfl⟩)
          rw [hSame, iff_false_left (UInt8.lt_irrefl _)] at hLess hMore
          exact Nat.le_antisymm (Nat.le_of_not_lt hMore) (Nat.le_of_not_lt hLess)

end Spelling

theorem digit?_eq_some_iff {c : Char} {d : Nat} : digit? c = some d ↔ d < 32 ∧ c.toUpper = symbol d := by
  constructor
  · intro h
    obtain ⟨hBound, hSame, -⟩ := List.idxOf?_eq_some_iff.mp h
    refine ⟨hBound, ?_⟩
    rw [symbol, List.getD, List.getElem?_eq_getElem hBound, hSame]
    rfl
  · rintro ⟨hBound, hUpper⟩
    rw [digit?, hUpper, (symbol_facts d hBound).2.2]

/-- Characters are read as digits if their upper case is that of the digits. -/
theorem mapM_digit?_eq_some_iff {cs : List Char} {digits : List Nat} : cs.mapM digit? = some digits ↔
    (∀ d ∈ digits, d < 32) ∧ cs.map Char.toUpper = digits.map symbol := by
  induction cs generalizing digits with
  | nil =>
      cases digits with
      | nil => exact iff_of_true rfl ⟨fun _ h => absurd h List.not_mem_nil, rfl⟩
      | cons d digits => exact iff_of_false (fun h => by cases h) fun h => by cases h.2
  | cons c cs ih =>
      rw [List.mapM_cons]
      constructor
      · intro h
        obtain ⟨d, hFirst, h⟩ := Option.bind_eq_some_iff.mp h
        obtain ⟨rest, hRest, h⟩ := Option.bind_eq_some_iff.mp h
        obtain rfl := Option.some.inj h
        obtain ⟨hBound, hUpper⟩ := digit?_eq_some_iff.mp hFirst
        obtain ⟨hBounds, hUppers⟩ := ih.mp hRest
        exact ⟨List.forall_mem_cons.mpr ⟨hBound, hBounds⟩, by
          rw [List.map_cons, List.map_cons, hUpper, hUppers]⟩
      · rintro ⟨hBounds, hUppers⟩
        cases digits with
        | nil => cases hUppers
        | cons d rest =>
            obtain ⟨hBound, hBounds⟩ := List.forall_mem_cons.mp hBounds
            obtain ⟨hUpper, hUppers⟩ := List.cons.inj hUppers
            rw [digit?_eq_some_iff.mpr ⟨hBound, hUpper⟩, ih.mpr ⟨hBounds, hUppers⟩]
            rfl

/-- No character beyond ASCII has an upper case in ASCII. -/
theorem lt_of_toUpper_lt {c : Char} (h : c.toUpper.toNat < 0x80) : c.toNat < 0x80 := by
  unfold Char.toUpper at h
  split at h
  · next hLower =>
    have hBound : c.toNat ≤ 122 := UInt32.le_iff_toNat_le.mp hLower.2
    omega
  · exact h

/-- What is read: a text whose upper case is spelled by 26 digits. The number that they spell is kept as far
as an id can hold it. -/
theorem read_eq_ok_iff {s : String} {id : TransactionId} : read s = .ok id ↔
    ∃ digits, digits.length = 26 ∧ (∀ d ∈ digits, d < 32) ∧ s.toUpper = spell digits ∧
      id.bits.toNat = valueOf digits % 2 ^ 128 := by
  have hUpperList : s.toUpper.toList = s.toList.map Char.toUpper := by
    rw [String.toUpper, String.toList_map]
  -- Digits are ASCII characters, so that there are as many of them as bytes.
  have hSize {digits : List Nat} (hDigits : ∀ d ∈ digits, d < 32)
      (hUpper : s.toList.map Char.toUpper = digits.map symbol) : s.utf8ByteSize = digits.length := by
    have hLength := congrArg List.length hUpper
    rw [List.length_map, List.length_map] at hLength
    rw [← hLength]
    refine Text.utf8ByteSize_of_ascii fun c hc => lt_of_toUpper_lt ?_
    obtain ⟨d, hd, hSame⟩ := List.mem_map.mp (hUpper ▸ List.mem_map_of_mem hc)
    exact hSame ▸ (symbol_facts d (hDigits d hd)).1
  rw [read]
  constructor
  · intro h
    split at h
    · cases h
    · next hBytes =>
      split at h
      · cases h
      · next digits hRead =>
        obtain ⟨hDigits, hUpper⟩ := mapM_digit?_eq_some_iff.mp hRead
        refine ⟨digits, ?_, hDigits, ?_, ?_⟩
        · rw [← hSize hDigits hUpper]
          exact Decidable.not_not.mp hBytes
        · rw [← String.toList_inj, hUpperList, hUpper, spell, String.toList_ofList]
        · rw [← Except.ok.inj h]
          exact BitVec.toNat_ofNat _ _
  · rintro ⟨digits, hLength, hDigits, hUpper, hBits⟩
    rw [← String.toList_inj, hUpperList, spell, String.toList_ofList] at hUpper
    rw [if_neg (Decidable.not_not.mpr ((hSize hDigits hUpper).trans hLength)),
      mapM_digit?_eq_some_iff.mpr ⟨hDigits, hUpper⟩]
    obtain ⟨bits⟩ := id
    have hSame : BitVec.ofNat 128 (valueOf digits) = bits :=
      BitVec.eq_of_toNat_eq ((BitVec.toNat_ofNat _ _).trans hBits.symm)
    rw [← hSame]
    rfl

/-! ### Texts of ids -/

theorem digitsOf_eq_map (count n : Nat) :
    digitsOf count n = (List.range count).map fun i => (n >>> (5 * (count - 1 - i))) % 32 := by
  induction count with
  | zero => rfl
  | succ count ih =>
      rw [digitsOf, ih, List.range_succ_eq_map, List.map_cons, List.map_map, Nat.shiftRight_eq_div_pow,
        Nat.pow_mul]
      refine congrArg (List.cons _) (List.map_congr_left fun i hi => ?_)
      have hBound := List.mem_range.mp hi
      show (n >>> (5 * (count - 1 - i))) % 32 = (n >>> (5 * (count + 1 - 1 - (i + 1)))) % 32
      rw [show count + 1 - 1 - (i + 1) = count - 1 - i by omega]

/-- The text of an id is spelled by its 26 digits. -/
theorem text_eq (id : TransactionId) : id.text = spell (digitsOf 26 id.bits.toNat) := by
  rw [digitsOf_eq_map, spell, List.map_map]
  rfl

theorem read_text (id : TransactionId) : read id.text = .ok id := by
  have hDigits : ∀ d ∈ digitsOf 26 id.bits.toNat, d < 32 := fun _ => lt_of_mem_digitsOf
  refine read_eq_ok_iff.mpr ⟨_, length_digitsOf 26 _, hDigits, by rw [text_eq, toUpper_spell hDigits], ?_⟩
  have hBound := id.bits.isLt
  rw [valueOf_digitsOf]
  omega

theorem before_text_iff (a b : TransactionId) :
    Text.Before a.text b.text ↔ a.bits.toNat < b.bits.toNat := by
  have hDigits (id : TransactionId) : ∀ d ∈ digitsOf 26 id.bits.toNat, d < 32 :=
    fun _ => lt_of_mem_digitsOf
  have hWhole (id : TransactionId) : id.bits.toNat % 32 ^ 26 = id.bits.toNat :=
    Nat.mod_eq_of_lt (Nat.lt_trans id.bits.isLt (by decide))
  rw [text_eq, text_eq, before_spell_iff (hDigits a) (hDigits b),
    ← valueOf_lt_iff (hDigits a) (hDigits b) (by simp), valueOf_digitsOf, valueOf_digitsOf, hWhole, hWhole]

/-- The characters that are digits below eight. -/
theorem digit_lt_eight_iff {c : Char} {d : Nat} (h : digit? c = some d) : d < 8 ↔ '0' ≤ c ∧ c ≤ '7' := by
  have hAll : ∀ n < 0x80, ∀ d ∈ digit? (Char.ofNat n), (d < 8 ↔ 48 ≤ n ∧ n ≤ 55) := by decide +kernel
  obtain ⟨hBound, hUpper⟩ := digit?_eq_some_iff.mp h
  have hAscii : c.toNat < 0x80 := lt_of_toUpper_lt (hUpper ▸ (symbol_facts d hBound).1)
  rw [hAll c.toNat hAscii d (by rwa [Char.ofNat_toNat]), Char.le_def, Char.le_def, UInt32.le_iff_toNat_le,
    UInt32.le_iff_toNat_le]
  rfl

/-- Whether the first digit of a text spells the upper three bits of an id and no more. -/
def FirstFits (s : String) : Prop := ∃ c rest, s.toList = c :: rest ∧ '0' ≤ c ∧ c ≤ '7'

/-- A text that is read is the text of what was read, but for the case of its letters, exactly if its first
digit fits. The 25 digits behind it spell 125 bits. -/
theorem text_eq_toUpper_iff {s : String} {id : TransactionId} (h : read s = .ok id) :
    id.text = s.toUpper ↔ FirstFits s := by
  obtain ⟨digits, hLength, hDigits, hUpper, hBits⟩ := read_eq_ok_iff.mp h
  have hSpelled : id.text = s.toUpper ↔ id.bits.toNat % 32 ^ 26 = valueOf digits := by
    rw [text_eq, hUpper, spell_inj (fun _ => lt_of_mem_digitsOf) hDigits, ← hLength]
    exact digitsOf_eq_iff hDigits _
  cases digits with
  | nil => cases hLength
  | cons d rest =>
      obtain ⟨hFirst, hRest⟩ := List.forall_mem_cons.mp hDigits
      have hCount : rest.length = 25 := Nat.succ.inj hLength
      have hTail := valueOf_lt hRest
      rw [← String.toList_inj, String.toUpper, String.toList_map, spell, String.toList_ofList] at hUpper
      obtain ⟨c, cs, hText, hSymbol, -⟩ := List.map_eq_cons_iff.mp hUpper
      rw [valueOf_cons, hCount] at hBits hSpelled
      rw [hCount] at hTail
      have hFits : FirstFits s ↔ d < 8 := by
        rw [digit_lt_eight_iff (digit?_eq_some_iff.mpr ⟨hFirst, hSymbol⟩)]
        constructor
        · rintro ⟨c', rest', hText', hLow⟩
          obtain ⟨rfl, -⟩ := List.cons.inj (hText.symm.trans hText')
          exact hLow
        · exact fun hLow => ⟨c, cs, hText, hLow⟩
      rw [hSpelled, hFits, hBits]
      omega

theorem parse_eq_ok_iff {s : String} {id : TransactionId} : parse s = .ok id ↔ read s = .ok id := by
  rw [parse]
  cases read s with
  | ok value =>
      exact ⟨fun h => congrArg Except.ok (Except.ok.inj h), fun h => congrArg Except.ok (Except.ok.inj h)⟩
  | error fault => exact iff_of_false (fun h => by cases h) fun h => by cases h

/-! ### Times -/

/-- The order of ids by their times, and by the bits below them where the times are the same. -/
def Earlier (a b : TransactionId) : Prop :=
  a.createdAtMillis < b.createdAtMillis ∨ a.createdAtMillis = b.createdAtMillis ∧ a.entropy < b.entropy

/-- The time has 48 bits, and what is below it has 80. -/
theorem bits_eq (id : TransactionId) : id.createdAtMillis < 2 ^ 48 ∧ id.entropy < 2 ^ 80 ∧
    id.bits.toNat = id.createdAtMillis * 2 ^ 80 + id.entropy := by
  have hBound := id.bits.isLt
  have hTime : id.createdAtMillis = id.bits.toNat / 2 ^ 80 := Nat.shiftRight_eq_div_pow _ _
  have hBelow : id.entropy = id.bits.toNat % 2 ^ 80 := BitVec.toNat_setWidth _ _
  omega

theorem earlier_iff (a b : TransactionId) : a.Earlier b ↔ a.bits.toNat < b.bits.toNat := by
  have ha := a.bits_eq
  have hb := b.bits_eq
  rw [Earlier]
  omega

theorem le_iff (a b : TransactionId) : a ≤ b ↔ ¬ b.bits.toNat < a.bits.toNat :=
  BitVec.le_def.trans Nat.not_lt.symm

/-- A count as a signed number, or the largest one if it is none. -/
def signedCount (count : UInt64) : Millis :=
  if count.toNat < 2 ^ 63 then Int64.ofNat count.toNat else Int64.maxValue

/-- The moment of creation, in a calendar that may not know every count of milliseconds. Where it does not,
the present moment is taken instead. -/
def createdAt {Moment : Type} (ofMillis? : Millis → Option Moment) (present : Moment)
    (id : TransactionId) : Moment :=
  (ofMillis? (signedCount (UInt64.ofNat id.createdAtMillis))).getD present

theorem toInt_signedCount (id : TransactionId) :
    (signedCount (UInt64.ofNat id.createdAtMillis)).toInt = id.createdAtMillis := by
  obtain ⟨hTime, -⟩ := id.bits_eq
  have hCount : (UInt64.ofNat id.createdAtMillis).toNat = id.createdAtMillis :=
    UInt64.toNat_ofNat_of_lt' (Nat.lt_trans hTime (by decide))
  have hSigned : id.createdAtMillis < 2 ^ 63 := Nat.lt_trans hTime (by decide)
  rw [signedCount, hCount, if_pos hSigned]
  exact Int64.toInt_ofNat_of_lt hSigned

/-- Texts keep ids and their order, and times come from the ids alone. Every id is read back from its text.
The order of ids, the byte order of their texts and the order of their times, with the bits below them, are
one order. What is read has the upper case of what it was read from for its text exactly if the first digit
fits. And in any calendar that knows all counts of 48 bits, the moment of creation is that of the time in the
id, whatever the present moment is. -/
theorem texts_and_times {Moment : Type} (ofMillis? : Millis → Option Moment) (millisOf : Moment → Int)
    (hKnown : ∀ count : Millis, 0 ≤ count.toInt → count.toInt < 2 ^ 48 →
      ∃ moment, ofMillis? count = some moment ∧ millisOf moment = count.toInt) :
    (∀ id : TransactionId, parse id.text = .ok id) ∧
      (∀ a b : TransactionId, (a ≤ b ↔ ¬ Text.Before b.text a.text) ∧ (a ≤ b ↔ ¬ b.Earlier a)) ∧
      (∀ (s : String) (id : TransactionId), parse s = .ok id → (id.text = s.toUpper ↔ FirstFits s)) ∧
      ∀ id : TransactionId, id.createdAtMillis < 2 ^ 48 ∧ ∃ moment,
        ofMillis? (signedCount (UInt64.ofNat id.createdAtMillis)) = some moment ∧
        millisOf moment = id.createdAtMillis ∧
        ∀ present, createdAt ofMillis? present id = moment := by
  refine ⟨fun id => parse_eq_ok_iff.mpr id.read_text, fun a b => ⟨?_, ?_⟩,
    fun s id h => text_eq_toUpper_iff (parse_eq_ok_iff.mp h), fun id => ⟨id.bits_eq.1, ?_⟩⟩
  · rw [le_iff, before_text_iff]
  · rw [le_iff, earlier_iff]
  · obtain ⟨moment, hMoment, hMillis⟩ := hKnown (signedCount (UInt64.ofNat id.createdAtMillis))
      (by rw [toInt_signedCount]; omega) (by rw [toInt_signedCount]; exact_mod_cast id.bits_eq.1)
    refine ⟨moment, hMoment, hMillis.trans id.toInt_signedCount, fun present => ?_⟩
    rw [createdAt, hMoment]
    rfl

/-- A calendar that ends with the year 262142. Its moments are counted in milliseconds. -/
def untilYear262142? (count : Millis) : Option Int :=
  if count.toInt ≤ 8210266876799999 then some count.toInt else none

/-- Two texts are read as the largest id. The first digit of one of them fits, and its upper case is the text
of the id; that of the other does not. The id is not before any other, and its time is the largest one. -/
theorem texts_and_times_of_largest :
    (∀ count : Millis, 0 ≤ count.toInt → count.toInt < 2 ^ 48 →
      ∃ moment, untilYear262142? count = some moment ∧ id moment = count.toInt) ∧
    parse "7zzzzzzzzzzzzzzzzzzzzzzzzz" = .ok ⟨.allOnes 128⟩ ∧
    text ⟨.allOnes 128⟩ = "7ZZZZZZZZZZZZZZZZZZZZZZZZZ" ∧
    parse "zzzzzzzzzzzzzzzzzzzzzzzzzz" = .ok ⟨.allOnes 128⟩ ∧
    text ⟨.allOnes 128⟩ ≠ "zzzzzzzzzzzzzzzzzzzzzzzzzz".toUpper ∧
    ¬ Text.Before (text ⟨.allOnes 128⟩) (text ⟨0⟩) ∧
    ∀ present, createdAt untilYear262142? present ⟨.allOnes 128⟩ = 281474976710655 := by
  have hKnown : ∀ count : Millis, 0 ≤ count.toInt → count.toInt < 2 ^ 48 →
      ∃ moment, untilYear262142? count = some moment ∧ id moment = count.toInt := fun count _ hCount =>
    ⟨count.toInt, if_pos (by omega), rfl⟩
  obtain ⟨-, hOrder, hUpper, hTimes⟩ := texts_and_times untilYear262142? id hKnown
  have hLow : parse "7zzzzzzzzzzzzzzzzzzzzzzzzz" = .ok ⟨.allOnes 128⟩ := rfl
  have hHigh : parse "zzzzzzzzzzzzzzzzzzzzzzzzzz" = .ok ⟨.allOnes 128⟩ := rfl
  refine ⟨hKnown, hLow, ?_, hHigh, fun hText => ?_, (hOrder ⟨0⟩ ⟨.allOnes 128⟩).1.mp (by decide), ?_⟩
  · rw [(hUpper _ _ hLow).mpr ⟨'7', _, rfl, by decide, by decide⟩, ← String.toList_inj, String.toUpper,
      String.toList_map]
    decide
  · obtain ⟨c, rest, hFirst, -, hFits⟩ := (hUpper _ _ hHigh).mp hText
    obtain rfl : 'z' = c := (List.cons.inj hFirst).1
    exact absurd hFits (by decide)
  · obtain ⟨-, moment, -, hMillis, hCreated⟩ := hTimes ⟨.allOnes 128⟩
    intro present
    exact (hCreated present).trans hMillis

end SnapshotCatalog.TransactionId
