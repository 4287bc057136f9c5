import CDelta.Text.Utf8
import Mathlib.Data.List.Basic

/-! # What a reading of UTF-8 says

A reading splits some bytes into those of characters and into flaws, a flaw being a longest piece
that begins a character without becoming one, or a byte that begins none. Every text of bytes has
one reading, and it is the one that is computed.

Characters come back from their own bytes, so a reading without a replacement tells which bytes
were read. One with a replacement does not.
-/

namespace CDelta.Text.Utf8

/-! ## The bytes of a character -/

/-- How much a digit of six bits counts for when so many digits follow it. -/
def weight : Nat → Nat
  | 0 => 1
  | count + 1 => 64 * weight count

theorem weight_pos (count : Nat) : 0 < weight count := by
  induction count with
  | zero => decide
  | succ count ih => exact Nat.mul_pos (by decide) ih

theorem div_weight_succ (value count : Nat) :
    value / weight (count + 1) = value / weight count / 64 := by
  rw [weight, Nat.mul_comm, Nat.div_div_eq_div_mul]

/-- The values of the characters that take so many bytes. -/
def Scalar (size value : Nat) : Prop :=
  size = 1 ∧ value < 0x80 ∨
  size = 2 ∧ 0x80 ≤ value ∧ value < 0x800 ∨
  size = 3 ∧ 0x800 ≤ value ∧ value < 0x10000 ∧ ¬ (0xD800 ≤ value ∧ value < 0xE000) ∨
  size = 4 ∧ 0x10000 ≤ value ∧ value < 0x110000

theorem scalar_char (char : Char) : Scalar char.utf8Size char.toNat := by
  have hvalid : char.toNat < 0xD800 ∨ 0xDFFF < char.toNat ∧ char.toNat < 0x110000 := char.valid
  have hsize : char.utf8Size = if char.toNat ≤ 0x7F then 1 else if char.toNat ≤ 0x7FF then 2
      else if char.toNat ≤ 0xFFFF then 3 else 4 := rfl
  unfold Scalar
  split_ifs at hsize <;> omega

theorem Scalar.toNat_ofNat {size value : Nat} (hscalar : Scalar size value) :
    (Char.ofNat value).toNat = value := by
  have hvalid : value.isValidChar := by
    unfold Scalar at hscalar
    unfold Nat.isValidChar
    omega
  rw [Char.ofNat, dif_pos hvalid]
  rfl

theorem Scalar.utf8Size_ofNat {size value : Nat} (hscalar : Scalar size value) :
    (Char.ofNat value).utf8Size = size := by
  have hsize := scalar_char (Char.ofNat value)
  rw [hscalar.toNat_ofNat] at hsize
  unfold Scalar at hscalar hsize
  omega

/-- Once two bytes are read, the next one may hold any digit. -/
theorem Scalar.fill {read owed value digit : Nat} (hread : 0 < read)
    (hscalar : Scalar (read + (owed + 2)) value) (hdigit : digit < 64) :
    Scalar (read + (owed + 2)) ((value / weight (owed + 1) * 64 + digit) * weight owed) := by
  have howed : owed = 0 ∨ owed = 1 ∧ read = 1 := by
    unfold Scalar at hscalar
    omega
  obtain rfl | ⟨rfl, rfl⟩ := howed
  all_goals
    simp only [Scalar, weight, Nat.reduceMul, true_and] at hscalar ⊢
    omega

/-- Which digits the first two bytes of a character can hold. -/
theorem exists_scalar_iff {owed bits : Nat} (howed : 0 < owed) :
    (∃ value, Scalar (1 + owed) value ∧ value / weight (owed - 1) = bits) ↔
      owed = 1 ∧ 0x80 ≤ bits ∧ bits < 0x800 ∨
      owed = 2 ∧ 0x20 ≤ bits ∧ bits < 0x400 ∧ ¬ (0x360 ≤ bits ∧ bits < 0x380) ∨
      owed = 3 ∧ 0x10 ≤ bits ∧ bits < 0x110 := by
  constructor
  · rintro ⟨value, hscalar, rfl⟩
    have hsize : owed = 1 ∨ owed = 2 ∨ owed = 3 := by
      unfold Scalar at hscalar
      omega
    obtain rfl | rfl | rfl := hsize
    all_goals
      simp only [Scalar, weight, Nat.reduceMul, Nat.reduceSub, true_and] at hscalar ⊢
      omega
  · intro hbits
    refine ⟨bits * weight (owed - 1), ?_, Nat.mul_div_cancel _ (weight_pos _)⟩
    obtain ⟨rfl, _⟩ | ⟨rfl, _⟩ | ⟨rfl, _⟩ := hbits
    all_goals
      simp only [Scalar, weight, Nat.reduceMul, Nat.reduceSub, true_and]
      omega

/-- What the first byte of a character of a size holds above its digit. -/
def marker : Nat → Nat
  | 0 | 1 => 0
  | 2 => 0xC0
  | 3 => 0xE0
  | _ => 0xF0

/-- The last bytes of a character. -/
def trail (value : Nat) : Nat → Bytes
  | 0 => []
  | owed + 1 => UInt8.ofNat (value / weight owed % 64 + 0x80) :: trail value owed

@[simp] theorem length_trail (value owed : Nat) : (trail value owed).length = owed := by
  induction owed with
  | zero => rfl
  | succ owed ih => rw [trail, List.length_cons, ih]

theorem eq_ofNat_iff {byte : UInt8} {value : Nat} (hvalue : value < 256) :
    byte = UInt8.ofNat value ↔ byte.toNat = value := by
  rw [← UInt8.toNat_inj, UInt8.toNat_ofNat_of_lt' hvalue]

theorem utf8EncodeChar_eq (char : Char) :
    String.utf8EncodeChar char =
      UInt8.ofNat (marker char.utf8Size + char.toNat / weight (char.utf8Size - 1)) ::
        trail char.toNat (char.utf8Size - 1) := by
  unfold String.utf8EncodeChar
  rw [Char.toNat_val]
  obtain ⟨hsize, _⟩ | ⟨hsize, _⟩ | ⟨hsize, _⟩ | ⟨hsize, _⟩ := scalar_char char
  all_goals simp only [hsize, marker, weight, trail, Nat.reduceMul, Nat.reduceSub, Nat.div_one]
  · rw [if_pos (by omega), Nat.zero_add]
  · rw [if_neg (by omega), if_pos (by omega), Nat.mod_eq_of_lt (by omega), Nat.add_comm]
  · rw [if_neg (by omega), if_neg (by omega), if_pos (by omega),
      Nat.mod_eq_of_lt (a := char.toNat / 4096) (by omega), Nat.add_comm (char.toNat / 4096)]
  · rw [if_neg (by omega), if_neg (by omega), if_neg (by omega),
      Nat.mod_eq_of_lt (a := char.toNat / 262144) (by omega), Nat.add_comm (char.toNat / 262144)]

theorem utf8EncodeChar_eq_cons_iff {char : Char} {byte : UInt8} {tail : Bytes} :
    String.utf8EncodeChar char = byte :: tail ↔
      byte.toNat = marker char.utf8Size + char.toNat / weight (char.utf8Size - 1) ∧
        tail = trail char.toNat (char.utf8Size - 1) := by
  have hbyte : marker char.utf8Size + char.toNat / weight (char.utf8Size - 1) < 256 := by
    obtain ⟨hsize, _⟩ | ⟨hsize, _⟩ | ⟨hsize, _⟩ | ⟨hsize, _⟩ := scalar_char char
    all_goals
      simp only [hsize, marker, weight, Nat.reduceMul, Nat.reduceSub]
      omega
  rw [utf8EncodeChar_eq, List.cons.injEq, eq_comm (b := byte), eq_ofNat_iff hbyte,
    eq_comm (b := tail)]

/-- A text starts with the bytes of one character at most. -/
theorem char_unique {char other : Char} {rest more : Bytes}
    (hsame : String.utf8EncodeChar char ++ rest = String.utf8EncodeChar other ++ more) :
    char = other := by
  have hdecode := congrArg (fun data : Bytes => data.toByteArray.utf8DecodeChar? 0) hsame
  simp only [List.toByteArray_append, ByteArray.utf8DecodeChar?_utf8EncodeChar_append] at hdecode
  exact Option.some.inj hdecode

/-! ## Readings -/

/-- Some bytes are the first ones of a character. -/
def Begins (part : Bytes) : Prop :=
  ∃ char, part <+: String.utf8EncodeChar char

theorem Begins.of_isPrefix {part whole : Bytes} (hpart : part <+: whole) (hwhole : Begins whole) :
    Begins part :=
  hwhole.imp fun _ => hpart.trans

/-- No character stands at the start of `part ++ rest`, and `part` is the longest piece there
that begins one, or the first byte if none does. -/
structure Flaw (part rest : Bytes) : Prop where
  ne_nil : part ≠ []
  no_char : ∀ char, ¬ String.utf8EncodeChar char <+: part ++ rest
  longest : ∀ piece, Begins piece → piece <+: part ++ rest → piece <+: part
  begins : Begins part ∨ part.length = 1

/-- Some bytes say some characters, with a replacement for each flaw. -/
inductive Reads : Bytes → List Char → Prop
  | nil : Reads [] []
  | char {char : Char} {rest : Bytes} {chars : List Char} (hrest : Reads rest chars) :
      Reads (String.utf8EncodeChar char ++ rest) (char :: chars)
  | flaw {part rest : Bytes} {chars : List Char} (hflaw : Flaw part rest)
      (hrest : Reads rest chars) : Reads (part ++ rest) (replacement :: chars)

theorem Flaw.isPrefix {part rest other more : Bytes} (hpart : Flaw part rest)
    (hother : Flaw other more) (hsame : part ++ rest = other ++ more) : part <+: other := by
  obtain hbegins | hlength := hpart.begins
  · exact hother.longest part hbegins (hsame ▸ List.prefix_append part rest)
  · have hother := List.length_pos_iff.mpr hother.ne_nil
    apply List.prefix_of_prefix_length_le (List.prefix_append part rest)
    · rw [hsame]
      exact List.prefix_append other more
    · omega

theorem Flaw.unique {part rest other more : Bytes} (hpart : Flaw part rest)
    (hother : Flaw other more) (hsame : part ++ rest = other ++ more) : part = other :=
  (hpart.isPrefix hother hsame).eq_of_length_le (hother.isPrefix hpart hsame.symm).length_le

/-- Some bytes have one reading at most. -/
theorem Reads.unique {data : Bytes} {chars others : List Char} (hchars : Reads data chars)
    (hothers : Reads data others) : chars = others := by
  induction hchars generalizing others with
  | nil =>
      generalize hdata : ([] : Bytes) = data at hothers
      cases hothers with
      | nil => rfl
      | char => simp [utf8EncodeChar_eq] at hdata
      | flaw hflaw =>
          rw [eq_comm, List.append_eq_nil_iff] at hdata
          exact absurd hdata.1 hflaw.ne_nil
  | @char char rest chars hrest ih =>
      generalize hdata : String.utf8EncodeChar char ++ rest = data at hothers
      cases hothers with
      | nil => simp [utf8EncodeChar_eq] at hdata
      | char hmore =>
          obtain rfl := char_unique hdata
          obtain rfl := List.append_cancel_left hdata
          rw [ih hmore]
      | flaw hflaw => exact absurd ⟨rest, hdata⟩ (hflaw.no_char char)
  | @flaw part rest chars hflaw hrest ih =>
      generalize hdata : part ++ rest = data at hothers
      cases hothers with
      | nil => exact absurd (List.append_eq_nil_iff.mp hdata).1 hflaw.ne_nil
      | char => exact absurd ⟨_, hdata.symm⟩ (hflaw.no_char _)
      | flaw hother hmore =>
          obtain rfl := hflaw.unique hother hdata
          obtain rfl := List.append_cancel_left hdata
          rw [ih hmore]

/-! ## A sequence that has begun -/

/-- Which characters can come of the bytes read, and which byte can be the next one. -/
structure Follows (read : Bytes) (pending : Pending) : Prop where
  ne_nil : read ≠ []
  owed_pos : 0 < pending.owed
  low_le_high : pending.low ≤ pending.high
  begun : ∀ char tail, String.utf8EncodeChar char = read ++ tail ↔
    char.utf8Size = read.length + pending.owed ∧
      char.toNat / weight pending.owed = pending.value ∧ tail = trail char.toNat pending.owed
  bounds : ∀ byte, pending.low ≤ byte ∧ byte ≤ pending.high ↔
    (∃ value, Scalar (read.length + pending.owed) value ∧
      value / weight (pending.owed - 1) = pending.value * 64 + (byte.toNat - 0x80)) ∧
    0x80 ≤ byte.toNat ∧ byte.toNat < 0xC0

namespace Follows

variable {read : Bytes} {pending : Pending} {byte : UInt8}

theorem append_cons_iff (h : Follows read pending) {char : Char} {tail : Bytes} :
    String.utf8EncodeChar char = read ++ byte :: tail ↔
      char.utf8Size = read.length + pending.owed ∧
        (char.toNat / weight (pending.owed - 1) = pending.value * 64 + (byte.toNat - 0x80) ∧
          0x80 ≤ byte.toNat ∧ byte.toNat < 0xC0) ∧
        tail = trail char.toNat (pending.owed - 1) := by
  obtain ⟨owed, howed⟩ := Nat.exists_eq_add_one.mpr h.owed_pos
  rw [h.begun, howed, Nat.add_sub_cancel, div_weight_succ, trail, List.cons.injEq,
    eq_ofNat_iff (by omega)]
  generalize char.toNat / weight owed = bits
  have hdigit : bits / 64 = pending.value ∧ byte.toNat = bits % 64 + 0x80 ↔
      bits = pending.value * 64 + (byte.toNat - 0x80) ∧ 0x80 ≤ byte.toNat ∧ byte.toNat < 0xC0 := by
    omega
  rw [← hdigit]
  simp only [and_assoc]

/-- The bounds let through the bytes with which the sequence still begins a character. -/
theorem begins_iff (h : Follows read pending) :
    Begins (read ++ [byte]) ↔ pending.low ≤ byte ∧ byte ≤ pending.high := by
  rw [h.bounds]
  constructor
  · rintro ⟨char, tail, htail⟩
    rw [List.append_assoc, eq_comm, List.singleton_append, h.append_cons_iff] at htail
    obtain ⟨hsize, ⟨hbits, hbyte⟩, _⟩ := htail
    exact ⟨⟨char.toNat, hsize ▸ scalar_char char, hbits⟩, hbyte⟩
  · rintro ⟨⟨value, hscalar, hbits⟩, hbyte⟩
    refine ⟨Char.ofNat value, trail value (pending.owed - 1), ?_⟩
    rw [List.append_assoc, eq_comm, List.singleton_append, h.append_cons_iff, hscalar.toNat_ofNat,
      hscalar.utf8Size_ofNat]
    exact ⟨rfl, ⟨hbits, hbyte⟩, rfl⟩

theorem begins (h : Follows read pending) : Begins read :=
  .of_isPrefix (List.prefix_append read [pending.low])
    (h.begins_iff.mpr ⟨UInt8.le_refl _, h.low_le_high⟩)

theorem ne_utf8EncodeChar (h : Follows read pending) (char : Char) :
    String.utf8EncodeChar char ≠ read := by
  intro hchar
  have htrail := ((h.begun char []).mp (hchar.trans (List.append_nil read).symm)).2.2
  have hlength := congrArg List.length htrail
  rw [List.length_nil, length_trail] at hlength
  exact absurd hlength (Nat.ne_of_lt h.owed_pos)

/-- The last byte completes the character. -/
theorem utf8EncodeChar_ofNat (h : Follows read pending)
    (hbounds : pending.low ≤ byte ∧ byte ≤ pending.high) (howed : pending.owed ≤ 1) :
    String.utf8EncodeChar (Char.ofNat (pending.value * 64 + (byte.toNat - 0x80))) =
      read ++ [byte] := by
  obtain ⟨⟨value, hscalar, hbits⟩, hbyte⟩ := (h.bounds byte).mp hbounds
  have hlast : pending.owed - 1 = 0 := by omega
  have hvalue : value = pending.value * 64 + (byte.toNat - 0x80) := by
    rw [← hbits, hlast, weight, Nat.div_one]
  rw [← hvalue, h.append_cons_iff, hscalar.toNat_ofNat, hscalar.utf8Size_ofNat, hlast]
  exact ⟨rfl, ⟨hlast ▸ hbits, hbyte⟩, rfl⟩

/-- A byte that is not the last one leaves one byte less to come. -/
theorem next (h : Follows read pending)
    (hbounds : pending.low ≤ byte ∧ byte ≤ pending.high) (howed : 1 < pending.owed) :
    Follows (read ++ [byte])
      ⟨pending.owed - 1, 0x80, 0xBF, pending.value * 64 + (byte.toNat - 0x80)⟩ := by
  obtain ⟨⟨value, hscalar, hbits⟩, hbyte⟩ := (h.bounds byte).mp hbounds
  obtain ⟨owed, howed⟩ : ∃ owed, pending.owed = owed + 2 := ⟨pending.owed - 2, by omega⟩
  have hsize : (read ++ [byte]).length + (pending.owed - 1) = read.length + pending.owed := by
    rw [List.length_append, List.length_singleton]
    omega
  refine ⟨by simp, by simp [howed], by simp, fun char tail => ?_, fun other => ?_⟩
  · rw [List.append_assoc, List.singleton_append, h.append_cons_iff, hsize]
    simp only [hbyte, and_true]
  · have hother : (0x80 : UInt8) ≤ other ∧ other ≤ 0xBF ↔
        0x80 ≤ other.toNat ∧ other.toNat < 0xC0 := by
      simp only [UInt8.le_iff_toNat_le, UInt8.reduceToNat]
      omega
    simp only [hsize, hother]
    rw [iff_and_self]
    intro hrange
    rw [howed] at hscalar hbits ⊢
    refine ⟨_, hscalar.fill (List.length_pos_iff.mpr h.ne_nil)
      (show other.toNat - 0x80 < 64 by omega), ?_⟩
    change _ / weight owed = _
    rw [Nat.mul_div_cancel _ (weight_pos owed)]
    exact congrArg (· * 64 + (other.toNat - 0x80)) hbits

/-- A sequence that the next byte does not continue, or that has no next byte, is a flaw. -/
theorem flaw (h : Follows read pending) {rest : Bytes}
    (hrest : ∀ byte ∈ rest.head?, ¬ (pending.low ≤ byte ∧ byte ≤ pending.high)) :
    Flaw read rest := by
  have hlongest : ∀ piece, Begins piece → piece <+: read ++ rest → piece <+: read := by
    intro piece hpiece hstart
    obtain hless | ⟨more, rfl⟩ :=
      List.prefix_or_prefix_of_prefix hstart (List.prefix_append read rest)
    · exact hless
    · cases more with
      | nil => exact (List.append_nil read).symm ▸ List.prefix_rfl
      | cons byte more =>
          -- the byte after the part read would be the first of the rest, and it is out of bounds
          obtain ⟨tail, rfl⟩ := (List.prefix_append_right_inj read).mp hstart
          refine absurd (h.begins_iff.mp (.of_isPrefix ?_ hpiece)) (hrest byte rfl)
          exact (List.prefix_append_right_inj read).mpr ⟨more, rfl⟩
  refine ⟨h.ne_nil, fun char hchar => ?_, hlongest, .inl h.begins⟩
  obtain ⟨tail, htail⟩ := hlongest _ ⟨char, List.prefix_rfl⟩ hchar
  obtain ⟨other, more, hmore⟩ := h.begins
  have hsame : String.utf8EncodeChar char ++ (tail ++ more) =
      String.utf8EncodeChar other ++ [] := by
    rw [← List.append_assoc, htail, hmore, List.append_nil]
  obtain rfl := char_unique hsame
  rw [List.append_cancel_left_eq, List.append_eq_nil_iff] at hsame
  rw [hsame.1, List.append_nil] at htail
  exact h.ne_utf8EncodeChar char htail

end Follows

/-! ## The first byte -/

/-- Which byte begins which sequence. -/
theorem start_eq (byte : UInt8) :
    (byte.toNat < 0x80 ∧ start byte = ([Char.ofNat byte.toNat], none)) ∨
    ((0x80 ≤ byte.toNat ∧ byte.toNat < 0xC2 ∨ 0xF4 < byte.toNat) ∧
      start byte = ([replacement], none)) ∨
    ∃ pending, start byte = ([], some pending) ∧ pending.low ≤ pending.high ∧
      (pending.owed = 1 ∧ byte.toNat = 0xC0 + pending.value ∧ pending.value < 0x20 ∨
        pending.owed = 2 ∧ byte.toNat = 0xE0 + pending.value ∧ pending.value < 0x10 ∨
        pending.owed = 3 ∧ byte.toNat = 0xF0 + pending.value ∧ pending.value < 5) ∧
      ∀ other, pending.low ≤ other ∧ other ≤ pending.high ↔
        (∃ value, Scalar (1 + pending.owed) value ∧
          value / weight (pending.owed - 1) = pending.value * 64 + (other.toNat - 0x80)) ∧
        0x80 ≤ other.toNat ∧ other.toNat < 0xC0 := by
  generalize hstart : start byte = found
  unfold start at hstart
  simp only [UInt8.lt_iff_toNat_lt, ← UInt8.toNat_inj, UInt8.reduceToNat] at hstart
  split_ifs at hstart
  all_goals subst found
  case pos => exact .inl ⟨‹_›, rfl⟩
  case pos => exact .inr (.inl ⟨by omega, rfl⟩)
  case neg => exact .inr (.inl ⟨by omega, rfl⟩)
  all_goals
    refine .inr (.inr ⟨_, rfl, by simp, by simp; omega, fun other => ?_⟩)
    rw [exists_scalar_iff (by simp), UInt8.le_iff_toNat_le, UInt8.le_iff_toNat_le]
    simp only [UInt8.reduceToNat, true_and]
    omega

/-- A first byte is a character, begins one, or is a flaw. -/
theorem start_cases (byte : UInt8) :
    (∃ char, String.utf8EncodeChar char = [byte] ∧ start byte = ([char], none)) ∨
    (¬ Begins [byte] ∧ start byte = ([replacement], none)) ∨
    ∃ pending, Follows [byte] pending ∧ start byte = ([], some pending) := by
  obtain ⟨hbyte, hstart⟩ | ⟨hbyte, hstart⟩ | ⟨pending, hstart, hless, hlead, hbounds⟩ :=
    start_eq byte
  · have hscalar : Scalar 1 byte.toNat := .inl ⟨rfl, hbyte⟩
    refine .inl ⟨_, utf8EncodeChar_eq_cons_iff.mpr ?_, hstart⟩
    rw [hscalar.toNat_ofNat, hscalar.utf8Size_ofNat]
    simp [marker, weight, trail]
  · refine .inr (.inl ⟨?_, hstart⟩)
    rintro ⟨char, tail, htail⟩
    have hfirst := (utf8EncodeChar_eq_cons_iff.mp htail.symm).1
    obtain ⟨hsize, _⟩ | ⟨hsize, _⟩ | ⟨hsize, _⟩ | ⟨hsize, _⟩ := scalar_char char
    all_goals
      simp only [hsize, marker, weight, Nat.reduceMul, Nat.reduceSub] at hfirst
      omega
  · refine .inr (.inr ⟨pending, ⟨by simp, by omega, hless, fun char tail => ?_, hbounds⟩, hstart⟩)
    have hfirst : byte.toNat = marker char.utf8Size + char.toNat / weight (char.utf8Size - 1) ↔
        char.utf8Size = 1 + pending.owed ∧ char.toNat / weight pending.owed = pending.value := by
      have hscalar := scalar_char char
      obtain ⟨howed, _⟩ | ⟨howed, _⟩ | ⟨howed, _⟩ := hlead
      all_goals
        obtain ⟨hsize, _⟩ | ⟨hsize, _⟩ | ⟨hsize, _⟩ | ⟨hsize, _⟩ := hscalar
        all_goals
          simp only [howed, hsize, marker, weight, Nat.reduceMul, Nat.reduceSub, true_and]
          omega
    rw [List.singleton_append, utf8EncodeChar_eq_cons_iff, hfirst, List.length_singleton, and_assoc]
    refine and_congr_right fun hsize => ?_
    rw [hsize, Nat.add_sub_cancel_left]

/-! ## The computed reading -/

theorem chars_none_cons (byte : UInt8) (rest : Bytes) :
    chars none (byte :: rest) = (start byte).1 ++ chars (start byte).2 rest :=
  rfl

theorem chars_some_cons (pending : Pending) (byte : UInt8) (rest : Bytes) :
    chars (some pending) (byte :: rest) =
      if pending.low ≤ byte ∧ byte ≤ pending.high then
        if pending.owed ≤ 1 then
          Char.ofNat (pending.value * 64 + (byte.toNat - 0x80)) :: chars none rest
        else
          chars (some ⟨pending.owed - 1, 0x80, 0xBF,
            pending.value * 64 + (byte.toNat - 0x80)⟩) rest
      else replacement :: chars none (byte :: rest) := by
  rw [chars, step]
  simp only [Bool.and_eq_true, decide_eq_true_eq]
  split_ifs <;> rfl

theorem flaw_singleton {byte : UInt8} (hbyte : ¬ Begins [byte]) (rest : Bytes) :
    Flaw [byte] rest := by
  have hlongest : ∀ piece, Begins piece → piece <+: [byte] ++ rest → piece = [] := by
    intro piece hpiece hstart
    cases piece with
    | nil => rfl
    | cons first more =>
        obtain rfl := (List.cons_prefix_cons.mp hstart).1
        exact absurd (.of_isPrefix ⟨more, rfl⟩ hpiece) hbyte
  refine ⟨by simp, fun char hchar => ?_, fun piece hpiece hstart => ?_, .inr rfl⟩
  · have hnil := hlongest _ ⟨char, List.prefix_rfl⟩ hchar
    simp [utf8EncodeChar_eq] at hnil
  · rw [hlongest piece hpiece hstart]
    exact List.nil_prefix

theorem reads_chars (data : Bytes) :
    Reads data (chars none data) ∧
      ∀ read pending, Follows read pending → Reads (read ++ data) (chars (some pending) data) := by
  induction data with
  | nil => exact ⟨.nil, fun read pending h => .flaw (h.flaw (by simp)) .nil⟩
  | cons byte rest ih =>
      have hnone : Reads (byte :: rest) (chars none (byte :: rest)) := by
        rw [chars_none_cons]
        obtain ⟨char, hchar, hstart⟩ | ⟨hbyte, hstart⟩ | ⟨pending, hpending, hstart⟩ :=
          start_cases byte
        all_goals rw [hstart]
        · rw [← List.singleton_append, ← hchar]
          exact .char ih.1
        · exact .flaw (flaw_singleton hbyte rest) ih.1
        · exact ih.2 [byte] pending hpending
      refine ⟨hnone, fun read pending h => ?_⟩
      rw [chars_some_cons]
      split_ifs with hbounds howed
      · rw [← List.singleton_append, ← List.append_assoc, ← h.utf8EncodeChar_ofNat hbounds howed]
        exact .char ih.1
      · rw [← List.singleton_append, ← List.append_assoc]
        exact ih.2 _ _ (h.next hbounds (Nat.lt_of_not_le howed))
      · refine .flaw (h.flaw fun other hother => ?_) hnone
        rwa [← Option.some.inj hother]

/-- The characters of a text are what its bytes say. -/
theorem reads_iff {data : Bytes} {chars : List Char} :
    Reads data chars ↔ (decode data).toList = chars := by
  rw [decode, String.toList_ofList]
  have hreads := (reads_chars data).1
  exact ⟨hreads.unique, fun hchars => hchars ▸ hreads⟩

/-! ## What can be told from a reading -/

/-- The bytes of a text. -/
def WellFormed (data : Bytes) : Prop :=
  ∃ chars : List Char, data = chars.flatMap String.utf8EncodeChar

theorem reads_flatMap (chars : List Char) : Reads (chars.flatMap String.utf8EncodeChar) chars := by
  induction chars with
  | nil => exact .nil
  | cons char chars ih => exact .char ih

/-- Without a replacement, the characters are those whose bytes were read. -/
theorem Reads.eq_flatMap {data : Bytes} {chars : List Char} (hreads : Reads data chars)
    (hchars : replacement ∉ chars) : data = chars.flatMap String.utf8EncodeChar := by
  induction hreads with
  | nil => rfl
  | char _ ih =>
      rw [List.flatMap_cons, ← ih (List.not_mem_of_not_mem_cons hchars)]
  | flaw => exact absurd List.mem_cons_self hchars

/-- Two texts of bytes say the same characters. -/
def ReadAlike (data other : Bytes) : Prop :=
  ∃ chars, Reads data chars ∧ Reads other chars

theorem readAlike_iff {data other : Bytes} : ReadAlike data other ↔ decode data = decode other := by
  simp only [ReadAlike, reads_iff]
  rw [exists_eq_left', String.toList_inj, eq_comm]

/-- Different bytes that read alike say a replacement, and some of them are ill-formed. -/
theorem ReadAlike.eq_or {data other : Bytes} (halike : ReadAlike data other) :
    data = other ∨
      replacement ∈ (decode data).toList ∧ ¬ (WellFormed data ∧ WellFormed other) := by
  obtain ⟨chars, hdata, hother⟩ := halike
  rw [or_iff_not_imp_left, reads_iff.mp hdata]
  intro hne
  constructor
  · by_contra hchars
    exact hne ((hdata.eq_flatMap hchars).trans (hother.eq_flatMap hchars).symm)
  · rintro ⟨⟨left, rfl⟩, ⟨right, rfl⟩⟩
    rw [(reads_flatMap left).unique hdata, (reads_flatMap right).unique hother] at hne
    exact hne rfl

end CDelta.Text.Utf8
