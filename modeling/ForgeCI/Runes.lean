import Mathlib.Data.List.Basic

/-!
# Byte strings as runes

A byte string is read as text from the left: where the bytes begin with the UTF-8 encoding of a
code point, that code point is the next rune, and otherwise one byte is read as an error.
`runes` keeps the code points and the places of the errors, but not the bytes that were wrong;
`text` does not keep the places either, since it reads an error as U+FFFD, which is a code point.
-/

namespace Runes

open String (utf8EncodeChar)

/-- The code point at the start of a byte string. -/
def decodeRune (b : List UInt8) : Option Char :=
  b.toByteArray.utf8DecodeChar? 0

def readRunes : Nat → List UInt8 → List (Option Char)
  | 0, _ => []
  | _ + 1, [] => []
  | n + 1, b :: bs =>
      match decodeRune (b :: bs) with
      | some c => some c :: readRunes n ((b :: bs).drop c.utf8Size)
      | none => none :: readRunes n bs

/-- The runes of a byte string; `none` is a byte that begins no code point. -/
def runes (b : List UInt8) : List (Option Char) := readRunes b.length b

/-- The text of a byte string: a byte that begins no code point is read as U+FFFD. -/
def text (b : List UInt8) : List Char := (runes b).map (·.getD '\ufffd')

/-- The bytes are the encoding of some text. -/
def Valid (b : List UInt8) : Prop := none ∉ runes b

instance (b : List UInt8) : Decidable (Valid b) := inferInstanceAs (Decidable (none ∉ runes b))

variable {b rest : List UInt8} {c : Char}

theorem length_readRunes_le (n : Nat) (b : List UInt8) : (readRunes n b).length ≤ n := by
  fun_induction readRunes n b with
  | case1 | case2 => exact Nat.zero_le _
  | case3 n x xs c hdecode ih => exact Nat.succ_le_succ ih
  | case4 n x xs hdecode ih => exact Nat.succ_le_succ ih

theorem decodeRune_encode_append : decodeRune (utf8EncodeChar c ++ rest) = some c := by
  rw [decodeRune, List.toByteArray_append]
  exact ByteArray.utf8DecodeChar?_utf8EncodeChar_append

theorem eq_encode_append_of_decodeRune (h : decodeRune b = some c) :
    b = utf8EncodeChar c ++ b.drop c.utf8Size := by
  obtain ⟨l, hl⟩ := ByteArray.exists_of_utf8DecodeChar?_eq_some h
  have hdata := congrArg (fun x => x.data.toList) hl
  simp only [List.data_toByteArray, ByteArray.toList_data_append] at hdata
  rw [hdata, ← String.length_utf8EncodeChar]
  simp

/-- The first code point is determined by the bytes, whatever follows it. -/
theorem encode_append_inj {c' : Char} {rest' : List UInt8}
    (h : utf8EncodeChar c ++ rest = utf8EncodeChar c' ++ rest') : c = c' ∧ rest = rest' := by
  have hc : some c = some c' :=
    calc some c = decodeRune (utf8EncodeChar c ++ rest) := decodeRune_encode_append.symm
      _ = decodeRune (utf8EncodeChar c' ++ rest') := congrArg decodeRune h
      _ = some c' := decodeRune_encode_append
  cases hc
  exact ⟨rfl, List.append_cancel_left h⟩

theorem readRunes_of_length_le {n : Nat} (h : b.length ≤ n) : readRunes n b = runes b := by
  unfold runes
  induction n using Nat.strongRecOn generalizing b with
  | _ n ih =>
    cases b with
    | nil => cases n <;> rfl
    | cons x xs =>
      cases n with
      | zero => simp at h
      | succ n =>
        have hn : xs.length ≤ n := by simpa using h
        have hxs : xs.length < n + 1 := by omega
        simp only [readRunes, List.length_cons]
        cases hc : decodeRune (x :: xs) with
        | none => grind
        | some c =>
          have hpos : 0 < c.utf8Size := Char.utf8Size_pos c
          grind

theorem runes_cons_of_decode {x : UInt8} {xs : List UInt8} (h : decodeRune (x :: xs) = some c) :
    runes (x :: xs) = some c :: runes ((x :: xs).drop c.utf8Size) := by
  have hpos : 0 < c.utf8Size := Char.utf8Size_pos c
  have hdrop : ((x :: xs).drop c.utf8Size).length ≤ xs.length := by
    rw [List.length_drop, List.length_cons]
    omega
  rw [← readRunes_of_length_le hdrop]
  simp [runes, readRunes, h]

theorem runes_cons_of_invalid {x : UInt8} {xs : List UInt8} (h : decodeRune (x :: xs) = none) :
    runes (x :: xs) = none :: runes xs := by
  simp [runes, readRunes, h]

theorem runes_encode_append : runes (utf8EncodeChar c ++ rest) = some c :: runes rest := by
  have hdecode : decodeRune (utf8EncodeChar c ++ rest) = some c := decodeRune_encode_append
  cases henc : utf8EncodeChar c ++ rest with
  | nil =>
    have := List.append_eq_nil_iff.1 henc
    exact absurd this.1 String.utf8EncodeChar_ne_nil
  | cons x xs =>
    rw [henc] at hdecode
    rw [runes_cons_of_decode hdecode, ← henc, ← String.length_utf8EncodeChar]
    simp

/-- Bytes without errors are the encoding of their text. -/
theorem Valid.eq_encode (h : Valid b) : b = (text b).flatMap utf8EncodeChar := by
  unfold text
  induction hn : b.length using Nat.strongRecOn generalizing b with
  | _ n ih =>
    cases b with
    | nil => rfl
    | cons x xs =>
      cases hc : decodeRune (x :: xs) with
      | none =>
        rw [Valid, runes_cons_of_invalid hc] at h
        simp at h
      | some c =>
        have hsplit := eq_encode_append_of_decodeRune hc
        have hrest : Valid ((x :: xs).drop c.utf8Size) := by
          rw [Valid, runes_cons_of_decode hc] at h
          simpa [Valid] using h
        have hlt : ((x :: xs).drop c.utf8Size).length < n := by
          have hpos : 0 < c.utf8Size := Char.utf8Size_pos c
          grind
        rw [runes_cons_of_decode hc, List.map_cons, List.flatMap_cons, ← ih _ hlt hrest rfl]
        exact hsplit

/-- **Byte strings without errors are determined by their text.** -/
theorem eq_of_text_eq {b' : List UInt8} (h : Valid b) (h' : Valid b') (heq : text b = text b') :
    b = b' := by
  rw [h.eq_encode, heq, ← h'.eq_encode]

/-- Only no bytes are no text. -/
theorem text_eq_nil : text b = [] ↔ b = [] := by
  constructor
  · intro h
    cases b with
    | nil => rfl
    | cons x xs =>
      cases hc : decodeRune (x :: xs) with
      | none => simp [text, runes_cons_of_invalid hc] at h
      | some c => simp [text, runes_cons_of_decode hc] at h
  · rintro rfl
    rfl

theorem encode_ascii {x : UInt8} (hx : x < 0x80) : utf8EncodeChar (Char.ofNat x.toNat) = [x] := by
  have hencode : ∀ n : Fin 128, utf8EncodeChar (Char.ofNat n) = [UInt8.ofNat n] := by decide
  have hlow : x.toNat < 128 := UInt8.lt_iff_toNat_lt.1 hx
  rw [hencode ⟨x.toNat, hlow⟩]
  simp

/-- ASCII text has no errors. -/
theorem valid_of_ascii (h : ∀ x ∈ b, x < 0x80) : Valid b := by
  induction b with
  | nil => simp [Valid, runes, readRunes]
  | cons x xs ih =>
    have hsplit : x :: xs = utf8EncodeChar (Char.ofNat x.toNat) ++ xs := by
      rw [encode_ascii (h x List.mem_cons_self)]
      rfl
    grind [Valid, runes_encode_append]

/-- The runes of encoded text. -/
theorem runes_flatMap_encode (cs : List Char) :
    runes (cs.flatMap utf8EncodeChar) = cs.map some := by
  induction cs with
  | nil => rfl
  | cons c cs ih => rw [List.flatMap_cons, runes_encode_append, ih, List.map_cons]

/-- An ASCII byte of an encoding is all of it. -/
theorem toNat_of_mem_encode {x : UInt8} (h : x ∈ utf8EncodeChar c) (hx : x < 0x80) :
    c.toNat = x.toNat := by
  have hlow : x.toNat < 128 := UInt8.lt_iff_toNat_lt.1 hx
  unfold String.utf8EncodeChar at h
  dsimp only at h
  split_ifs at h with h1 h2 h3
  · obtain rfl := List.mem_singleton.1 h
    have hmod : c.val.toNat % 256 = c.val.toNat := Nat.mod_eq_of_lt (by omega)
    rw [UInt8.toNat_ofNat']
    exact hmod.symm
  all_goals
    -- every byte of a longer encoding has its highest bit set
    exfalso
    simp only [List.mem_cons, List.not_mem_nil, or_false] at h
    rcases h with rfl | rfl | rfl | rfl <;>
      (rw [UInt8.toNat_ofNat'] at hlow; omega)

/-- An ASCII byte is a rune wherever it stands. -/
theorem exists_mem_runes {x : UInt8} (hx : x < 0x80) (h : x ∈ b) :
    ∃ c : Char, some c ∈ runes b ∧ c.toNat = x.toNat := by
  induction hn : b.length using Nat.strongRecOn generalizing b with
  | _ n ih =>
    cases b with
    | nil => cases h
    | cons y ys =>
      cases hc : decodeRune (y :: ys) with
      | none =>
        have hne : x ≠ y := by
          rintro rfl
          have happend : x :: ys = utf8EncodeChar (Char.ofNat x.toNat) ++ ys := by
            rw [encode_ascii hx]
            rfl
          grind [decodeRune_encode_append]
        have hys : x ∈ ys := (List.mem_cons.1 h).resolve_left hne
        obtain ⟨c, hmem, hcx⟩ := ih ys.length (by simp [← hn]) hys rfl
        refine ⟨c, ?_, hcx⟩
        rw [runes_cons_of_invalid hc]
        exact List.mem_cons_of_mem _ hmem
      | some c =>
        have hsplit := eq_encode_append_of_decodeRune hc
        rw [runes_cons_of_decode hc]
        rw [hsplit] at h
        rcases List.mem_append.1 h with hfirst | hrest
        · exact ⟨c, List.mem_cons_self, toNat_of_mem_encode hfirst hx⟩
        · have hlt : ((y :: ys).drop c.utf8Size).length < n := by
            have hpos : 0 < c.utf8Size := Char.utf8Size_pos c
            grind
          grind

end Runes
