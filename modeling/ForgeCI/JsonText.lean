import Mathlib.Data.Nat.Digits.Lemmas
import ForgeCI.Runes

/-!
# JSON text

Strings, numbers, optional fields and arrays as the encoder of the Go library writes them.  A
string is written rune by rune; quotes, backslashes, control characters, the characters that
matter in HTML and the two line separators are escaped, and a byte that begins no code point is
written as the bytes of U+FFFD.
-/

namespace JsonText

open String (utf8EncodeChar)

/-- ASCII text. -/
def ascii (s : String) : List UInt8 := s.toList.map fun c => UInt8.ofNat c.toNat

def hexDigit (n : Nat) : UInt8 := UInt8.ofNat (if n < 10 then 0x30 + n else 0x57 + n)

/-- An escape with four hexadecimal digits. -/
def longEscape (n : Nat) : List UInt8 :=
  [0x5c, 0x75, hexDigit (n / 4096 % 16), hexDigit (n / 256 % 16), hexDigit (n / 16 % 16),
    hexDigit (n % 16)]

/-- The characters escaped with one letter, and the letters. -/
def letters : List (Char × UInt8) :=
  [('"', 0x22), ('\\', 0x5c), ('\x08', 0x62), ('\x0c', 0x66), ('\n', 0x6e), ('\x0d', 0x72),
    ('\t', 0x74)]

def shortEscape (c : Char) : Option UInt8 := (letters.find? (·.1 = c)).map Prod.snd

/-- One rune inside a string. -/
def rune (c : Char) : List UInt8 :=
  match shortEscape c with
  | some letter => [0x5c, letter]
  | none =>
      if c.toNat < 0x20 ∨ c ∈ ['<', '>', '&', '\u2028', '\u2029'] then longEscape c.toNat
      else utf8EncodeChar c

def runeString (rs : List Char) : List UInt8 := 0x22 :: (rs.flatMap rune ++ [0x22])

/-- A byte string, written as its text. -/
def string (s : List UInt8) : List UInt8 := runeString (Runes.text s)

/-- A number that is not negative. -/
def number (n : Nat) : List UInt8 :=
  if n = 0 then [0x30] else (Nat.digits 10 n).reverse.map fun k => UInt8.ofNat (0x30 + k)

/-- A field with its key, if it has a value. -/
def optional {α : Type*} (key : List UInt8) (enc : α → List UInt8) : Option α → List UInt8
  | none => []
  | some a => key ++ enc a

/-- What follows an element of an array. -/
def arrayRest {α : Type*} (enc : α → List UInt8) : List α → List UInt8
  | [] => [0x5d]
  | a :: rest => 0x2c :: (enc a ++ arrayRest enc rest)

def array {α : Type*} (enc : α → List UInt8) : List α → List UInt8
  | [] => [0x5b, 0x5d]
  | a :: rest => 0x5b :: (enc a ++ arrayRest enc rest)

theorem arrayRest_map {α β : Type*} (enc : β → List UInt8) (f : α → β) (l : List α) :
    arrayRest enc (l.map f) = arrayRest (fun a => enc (f a)) l := by
  induction l with
  | nil => rfl
  | cons a rest ih => simp [arrayRest, ih]

theorem array_map {α β : Type*} (enc : β → List UInt8) (f : α → β) (l : List α) :
    array enc (l.map f) = array (fun a => enc (f a)) l := by
  cases l with
  | nil => rfl
  | cons a rest => simp [array, arrayRest_map]

theorem length_arrayRest {α : Type*} (enc : α → List UInt8) (l : List α) :
    (arrayRest enc l).length = 1 + (l.map fun a => (enc a).length + 1).sum := by
  induction l with
  | nil => rfl
  | cons a rest ih => grind [arrayRest]

theorem length_array {α : Type*} (enc : α → List UInt8) {l : List α} (h : l ≠ []) :
    (array enc l).length = 1 + (l.map fun a => (enc a).length + 1).sum := by
  cases l with
  | nil => exact absurd rfl h
  | cons a rest => grind [array, length_arrayRest]

theorem length_number_le {n k : Nat} (hk : 0 < k) (h : n < 10 ^ k) : (number n).length ≤ k := by
  unfold number
  split_ifs
  · exact hk
  · rw [List.length_map, List.length_reverse]
    exact (Nat.digits_length_le_iff (by decide) n).2 h

/-- A byte that stands for itself in a string. -/
def plain (x : UInt8) : Bool :=
  0x20 ≤ x && x < 0x7f && !([0x22, 0x5c, 0x3c, 0x3e, 0x26] : List UInt8).contains x

theorem plain_lt {x : UInt8} (h : plain x = true) : x.toNat < 128 := by
  simp only [plain, Bool.and_eq_true, decide_eq_true_eq] at h
  have hlt : x.toNat < 0x7f := UInt8.lt_iff_toNat_lt.1 h.1.2
  omega

theorem rune_plain {x : UInt8} (h : plain x = true) : rune (Char.ofNat x.toNat) = [x] := by
  have hall : ∀ n : Fin 128, plain (UInt8.ofNat n) = true →
      rune (Char.ofNat n) = [UInt8.ofNat n] := by decide +kernel
  have hx : UInt8.ofNat x.toNat = x := UInt8.ofNat_toNat
  simpa [hx] using hall ⟨x.toNat, plain_lt h⟩ (by simpa [hx] using h)

/-- **Plain text is written as it is**, between quotes. -/
theorem string_plain {s : List UInt8} (h : ∀ x ∈ s, plain x = true) :
    string s = 0x22 :: (s ++ [0x22]) := by
  have hrunes : (Runes.text s).flatMap rune = s := by
    unfold Runes.text
    induction s with
    | nil => rfl
    | cons x xs ih =>
      have hx := h x List.mem_cons_self
      have hsplit : x :: xs = utf8EncodeChar (Char.ofNat x.toNat) ++ xs := by
        rw [Runes.encode_ascii (UInt8.lt_iff_toNat_lt.2 (plain_lt hx))]
        rfl
      rw [hsplit, Runes.runes_encode_append, List.map_cons, List.flatMap_cons, Option.getD_some,
        rune_plain hx, ih fun y hy => h y (List.mem_cons_of_mem _ hy), ← hsplit]
      rfl
  rw [string, runeString, hrunes]

theorem length_string_plain {s : List UInt8} (h : ∀ x ∈ s, plain x = true) :
    (string s).length = s.length + 2 := by
  rw [string_plain h]
  simp

theorem plain_hexDigit {n : Nat} (h : n < 16) : plain (hexDigit n) = true := by
  have hall : ∀ i : Fin 16, plain (hexDigit i) = true := by decide
  exact hall ⟨n, h⟩

variable {α : Type*} {enc : α → List UInt8}

/-- The text of a value can be read off the front of a text, if what follows is as required. -/
def Readable (follows : List UInt8 → Prop) (enc : α → List UInt8) : Prop :=
  ∀ a b r s, follows r → follows s → enc a ++ r = enc b ++ s → a = b ∧ r = s

/-- Anything may follow. -/
def Anything : List UInt8 → Prop := fun _ => True

/-- No digit follows. -/
def NoDigit (r : List UInt8) : Prop := ∀ b, r.head? = some b → ¬(0x30 ≤ b ∧ b ≤ 0x39)

theorem hexDigit_inj {m n : Nat} (hm : m < 16) (hn : n < 16) (h : hexDigit m = hexDigit n) :
    m = n := by
  have hall : ∀ i : Fin 16, ∀ j : Fin 16, hexDigit i = hexDigit j → i = j := by decide
  exact congrArg Fin.val (hall ⟨m, hm⟩ ⟨n, hn⟩ h)

theorem longEscape_inj {m n : Nat} (hm : m < 65536) (hn : n < 65536)
    (h : longEscape m = longEscape n) : m = n := by
  simp only [longEscape, List.cons.injEq, and_true, true_and] at h
  obtain ⟨h3, h2, h1, h0⟩ := h
  have h3 := hexDigit_inj (Nat.mod_lt _ (by decide)) (Nat.mod_lt _ (by decide)) h3
  have h2 := hexDigit_inj (Nat.mod_lt _ (by decide)) (Nat.mod_lt _ (by decide)) h2
  have h1 := hexDigit_inj (Nat.mod_lt _ (by decide)) (Nat.mod_lt _ (by decide)) h1
  have h0 := hexDigit_inj (Nat.mod_lt _ (by decide)) (Nat.mod_lt _ (by decide)) h0
  omega

theorem mem_letters {c : Char} {letter : UInt8} (h : shortEscape c = some letter) :
    (c, letter) ∈ letters := by
  obtain ⟨pair, hfind, rfl⟩ := Option.map_eq_some_iff.1 h
  grind

theorem shortEscape_inj {c c' : Char} {letter : UInt8} (h : shortEscape c = some letter)
    (h' : shortEscape c' = some letter) : c = c' ∧ letter ≠ 0x75 := by
  have htable : (letters.all fun x => x.2 != 0x75 &&
      letters.all fun y => x.2 != y.2 || x.1 == y.1) = true := by decide
  have hrow := List.all_eq_true.1 htable _ (mem_letters h)
  rw [Bool.and_eq_true] at hrow
  have hpair := List.all_eq_true.1 hrow.2 _ (mem_letters h')
  exact ⟨by simpa using hpair, by simpa using hrow.1⟩

/-- How a rune is written: with a letter, with four digits, or as it is. -/
inductive Form (c : Char) : Prop
  | short (letter : UInt8) (h : shortEscape c = some letter) (heq : rune c = [0x5c, letter])
  | long (hcode : c.toNat < 65536) (heq : rune c = longEscape c.toNat)
  | plain (hquote : c ≠ '"') (hslash : c ≠ '\\') (heq : rune c = utf8EncodeChar c)

theorem form (c : Char) : Form c := by
  cases hshort : shortEscape c with
  | some letter => exact .short letter hshort (by simp [rune, hshort])
  | none =>
    by_cases hlong : c.toNat < 0x20 ∨ c ∈ ['<', '>', '&', '\u2028', '\u2029']
    · refine .long ?_ (by simp only [rune, hshort, if_pos hlong])
      rcases hlong with h | h
      · omega
      · simp only [List.mem_cons, List.not_mem_nil, or_false] at h
        rcases h with rfl | rfl | rfl | rfl | rfl <;> decide
    · refine .plain ?_ ?_ (by simp only [rune, hshort, if_neg hlong])
      · rintro rfl
        cases hshort
      · rintro rfl
        cases hshort

/-- A rune is written with six bytes at most. -/
theorem length_rune_le (c : Char) : (rune c).length ≤ 6 := by
  cases form c with
  | short letter h heq => simp [heq]
  | long hcode heq => simp [heq, longEscape]
  | plain hquote hslash heq =>
    rw [heq, String.length_utf8EncodeChar]
    exact (Char.utf8Size_le_four c).trans (by decide)

theorem length_string_le (s : List UInt8) : (string s).length ≤ 6 * s.length + 2 := by
  have hbytes : ∀ rs : List Char, (rs.flatMap rune).length ≤ 6 * rs.length := by
    intro rs
    induction rs with
    | nil => exact Nat.zero_le _
    | cons r rest ih =>
      have hr := length_rune_le r
      rw [List.flatMap_cons, List.length_append, List.length_cons]
      omega
  have hrunes : (Runes.text s).length ≤ s.length := by
    rw [Runes.text, List.length_map]
    exact Runes.length_readRunes_le s.length s
  have hall := hbytes (Runes.text s)
  simp only [string, runeString, List.length_cons, List.length_append, List.length_nil]
  omega

/-- A character written as it is begins no escape, and ends no string. -/
theorem encode_append_ne_cons {c c' : Char} {b : UInt8} {r s : List UInt8}
    (hb : utf8EncodeChar c' = [b]) (hc : c ≠ c') : utf8EncodeChar c ++ r ≠ b :: s := by
  intro h
  have h' : utf8EncodeChar c ++ r = utf8EncodeChar c' ++ s := by rw [h, hb]; rfl
  exact hc (Runes.encode_append_inj h').1

theorem rune_append_ne_quote {c : Char} {r s : List UInt8} : rune c ++ r ≠ 0x22 :: s := by
  cases form c with
  | short letter h heq => simp [heq]
  | long hcode heq => simp [heq, longEscape]
  | plain hquote hslash heq =>
    have hmark : utf8EncodeChar '"' = [0x22] := by decide
    rw [heq]
    exact encode_append_ne_cons hmark hquote

theorem readable_rune : Readable Anything rune := by
  intro c c' r s _ _ h
  have hmark : utf8EncodeChar '\\' = [0x5c] := by decide
  cases form c with
  | short letter hletter heq =>
    cases form c' with
    | short letter' hletter' heq' =>
      rw [heq, heq'] at h
      simp only [List.cons_append, List.nil_append, List.cons.injEq, true_and] at h
      obtain ⟨rfl, hrs⟩ := h
      exact ⟨(shortEscape_inj hletter hletter').1, hrs⟩
    | long hcode' heq' =>
      rw [heq, heq'] at h
      simp only [longEscape, List.cons_append, List.cons.injEq, true_and] at h
      exact absurd h.1 (shortEscape_inj hletter hletter).2
    | plain hquote' hslash' heq' =>
      rw [heq, heq'] at h
      exact absurd h.symm (encode_append_ne_cons hmark hslash')
  | long hcode heq =>
    cases form c' with
    | short letter' hletter' heq' =>
      rw [heq, heq'] at h
      simp only [longEscape, List.cons_append, List.cons.injEq, true_and] at h
      exact absurd h.1.symm (shortEscape_inj hletter' hletter').2
    | long hcode' heq' =>
      rw [heq, heq'] at h
      obtain ⟨hlong, hrs⟩ := List.append_inj h rfl
      exact ⟨Char.toNat_inj.1 (longEscape_inj hcode hcode' hlong), hrs⟩
    | plain hquote' hslash' heq' =>
      rw [heq, heq'] at h
      exact absurd h.symm (encode_append_ne_cons hmark hslash')
  | plain hquote hslash heq =>
    cases form c' with
    | short letter' hletter' heq' =>
      rw [heq, heq'] at h
      exact absurd h (encode_append_ne_cons hmark hslash)
    | long hcode' heq' =>
      rw [heq, heq'] at h
      exact absurd h (encode_append_ne_cons hmark hslash)
    | plain hquote' hslash' heq' =>
      rw [heq, heq'] at h
      exact Runes.encode_append_inj h

/-- **A string is determined by its text**, and no further. -/
theorem readable_string : Readable Anything runeString := by
  have hrunes : ∀ (xs ys : List Char) (r s : List UInt8),
      xs.flatMap rune ++ 0x22 :: r = ys.flatMap rune ++ 0x22 :: s → xs = ys ∧ r = s := by
    intro xs
    induction xs with
    | nil =>
      intro ys r s h
      cases ys with
      | nil => simpa using h
      | cons y ys =>
        simp only [List.flatMap_nil, List.nil_append, List.flatMap_cons,
          List.append_assoc] at h
        exact absurd h.symm rune_append_ne_quote
    | cons x xs ih =>
      intro ys r s h
      cases ys with
      | nil =>
        simp only [List.flatMap_nil, List.nil_append, List.flatMap_cons,
          List.append_assoc] at h
        exact absurd h rune_append_ne_quote
      | cons y ys =>
        simp only [List.flatMap_cons, List.append_assoc] at h
        obtain ⟨rfl, hrest⟩ := readable_rune x y _ _ trivial trivial h
        grind
  intro xs ys r s _ _ h
  apply hrunes
  simpa [runeString] using h

theorem digit_of_mem_number {n : Nat} {b : UInt8} (h : b ∈ number n) :
    0x30 ≤ b ∧ b ≤ 0x39 := by
  unfold number at h
  split_ifs at h with hn
  · obtain rfl := List.mem_singleton.1 h
    decide
  · obtain ⟨k, hk, rfl⟩ := List.mem_map.1 h
    have hlt : k < 10 := Nat.digits_lt_base (by decide) (List.mem_reverse.1 hk)
    have hall : ∀ i : Fin 10, 0x30 ≤ UInt8.ofNat (0x30 + i) ∧ UInt8.ofNat (0x30 + i) ≤ 0x39 := by
      decide
    exact hall ⟨k, hlt⟩

/-- The number that digits stand for. -/
def value (digits : List UInt8) : Nat :=
  Nat.ofDigits 10 (digits.reverse.map fun b => b.toNat - 0x30)

theorem value_number (n : Nat) : value (number n) = n := by
  unfold value number
  split_ifs with hn
  · simp [hn]
  · have hdigits : (Nat.digits 10 n).map (fun k => (UInt8.ofNat (0x30 + k)).toNat - 0x30) =
        Nat.digits 10 n := by
      rw [List.map_congr_left (g := id), List.map_id]
      intro k hk
      have hlt : k < 10 := Nat.digits_lt_base (by decide) hk
      rw [UInt8.toNat_ofNat', Nat.mod_eq_of_lt (by omega)]
      simp
    rw [← List.map_reverse, List.reverse_reverse, List.map_map]
    exact (congrArg (Nat.ofDigits 10) hdigits).trans (Nat.ofDigits_digits 10 n)

/-- A number is readable before anything but a digit. -/
theorem readable_number : Readable NoDigit number := by
  have hdigits : ∀ (n : Nat) (r : List UInt8), NoDigit r →
      (number n ++ r).takeWhile (fun b => 0x30 ≤ b ∧ b ≤ 0x39) = number n := by
    intro n r hr
    rw [List.takeWhile_append_of_pos fun b hb => by simpa using digit_of_mem_number hb]
    cases r with
    | nil => simp
    | cons b r =>
      have hb := hr b rfl
      rw [List.takeWhile_cons_of_neg (by simpa using hb), List.append_nil]
  intro m n r s hr hs h
  have hnumbers : number m = number n := by
    rw [← hdigits m r hr, h, hdigits n s hs]
  have hmn : m = n := by
    rw [← value_number m, hnumbers, value_number]
  subst hmn
  exact ⟨rfl, List.append_cancel_left h⟩

/-- A field may be left out where what follows does not begin like it. -/
theorem readable_optional {follows : List UInt8 → Prop} {key : List UInt8}
    (henc : Readable follows enc) :
    Readable (fun r => follows r ∧ ¬key <+: r) (optional key enc) := by
  intro a b r s hr hs h
  cases a with
  | none =>
    cases b with
    | none => exact ⟨rfl, h⟩
    | some b =>
      have hkey : key <+: r := ⟨enc b ++ s, by simpa [optional] using h.symm⟩
      exact absurd hkey hr.2
  | some a =>
    cases b with
    | none =>
      have hkey : key <+: s := ⟨enc a ++ r, by simpa [optional] using h⟩
      exact absurd hkey hs.2
    | some b =>
      simp only [optional, List.append_assoc] at h
      obtain ⟨rfl, hrs⟩ := henc a b r s hr.1 hs.1 (List.append_cancel_left h)
      exact ⟨rfl, hrs⟩

/-- Arrays are readable if their elements are, and none begins with a bracket. -/
theorem readable_array (henc : Readable Anything enc)
    (hbracket : ∀ a r s, enc a ++ r ≠ 0x5d :: s) : Readable Anything (array enc) := by
  have hrest : ∀ (as bs : List α) (r s : List UInt8),
      arrayRest enc as ++ r = arrayRest enc bs ++ s → as = bs ∧ r = s := by
    intro as
    induction as with
    | nil =>
      intro bs r s h
      cases bs with
      | nil => simpa [arrayRest] using h
      | cons b bs => simp [arrayRest] at h
    | cons a as ih =>
      intro bs r s h
      cases bs with
      | nil => simp [arrayRest] at h
      | cons b bs => grind [arrayRest, Readable, Anything]
  intro as bs r s _ _ h
  cases as with
  | nil =>
    cases bs with
    | nil => simpa [array] using h
    | cons b bs => grind [array]
  | cons a as =>
    cases bs with
    | nil => grind [array]
    | cons b bs =>
      simp only [array, List.cons_append, List.append_assoc, List.cons.injEq,
        true_and] at h
      obtain ⟨rfl, htail⟩ := henc a b _ _ trivial trivial h
      obtain ⟨rfl, hrs⟩ := hrest as bs r s htail
      exact ⟨rfl, hrs⟩

end JsonText
