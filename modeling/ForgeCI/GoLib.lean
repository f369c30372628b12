import Mathlib.Data.List.Sort
import Mathlib.Data.String.Basic

/-!
# The Go library functions the program calls

`sort.Strings`, the lexical functions of package `path`, the few functions of
`strings` and `unicode` that validation uses, as the library documents them, and
the addition of `int64`.  Strings are sequences of code points here: YAML and JSON text is valid
UTF-8, `/`, `.` and the other characters tested are single bytes, and the byte
order of valid UTF-8 is the order of code points.
-/

namespace GoLib

/-- `sort.Strings`. -/
def sortStrings (l : List String) : List String :=
  l.insertionSort (· ≤ ·)

@[simp] theorem mem_sortStrings {l : List String} {x : String} :
    x ∈ sortStrings l ↔ x ∈ l :=
  (List.perm_insertionSort _ l).mem_iff

theorem perm_sortStrings (l : List String) : (sortStrings l).Perm l :=
  List.perm_insertionSort _ l

@[simp] theorem length_sortStrings (l : List String) :
    (sortStrings l).length = l.length :=
  (perm_sortStrings l).length_eq

@[simp] theorem nodup_sortStrings {l : List String} :
    (sortStrings l).Nodup ↔ l.Nodup :=
  (perm_sortStrings l).nodup_iff

@[simp] theorem sortStrings_eq_nil {l : List String} : sortStrings l = [] ↔ l = [] := by
  rw [← List.length_eq_zero_iff, length_sortStrings, List.length_eq_zero_iff]

/-- The sum of two `int64`. -/
def add64 (a b : Int) : Int := (a + b).bmod (2 ^ 64)

/-- A sum that is an `int64` does not wrap. -/
theorem add64_eq {a b : Int} (hlow : -0x8000000000000000 ≤ a + b)
    (hhigh : a + b < 0x8000000000000000) :
    add64 a b = a + b := by
  unfold add64
  rw [Int.bmod_eq_of_le] <;> omega

/-- `unicode.IsSpace`: the code points with property White_Space. -/
def isSpace (c : Char) : Bool :=
  let n := c.toNat
  (0x09 ≤ n && n ≤ 0x0D) || n == 0x20 || n == 0x85 || n == 0xA0 || n == 0x1680 ||
    (0x2000 ≤ n && n ≤ 0x200A) || n == 0x2028 || n == 0x2029 || n == 0x202F ||
    n == 0x205F || n == 0x3000

/-- `unicode.IsControl`: category Cc. -/
def isControl (c : Char) : Bool :=
  let n := c.toNat
  n ≤ 0x1F || (0x7F ≤ n && n ≤ 0x9F)

/-- `strings.TrimSpace`. -/
def trimSpace (s : String) : String :=
  String.ofList ((s.toList.dropWhile isSpace).reverse.dropWhile isSpace).reverse

/-- `strings.HasPrefix`, on the characters of both strings. -/
def startsWith (s p : String) : Bool :=
  p.toList.isPrefixOf s.toList

/-- The elements of a slash-separated path, empty ones included. -/
def splitSlash : List Char → List (List Char)
  | [] => [[]]
  | '/' :: cs => [] :: splitSlash cs
  | c :: cs =>
      match splitSlash cs with
      | [] => [[c]]
      | part :: parts => (c :: part) :: parts

/-- Join path elements with single slashes. -/
def joinSlash (parts : List (List Char)) : List Char :=
  List.intercalate ['/'] parts

/-- The element rules of `path.Clean`; `kept` is what has been kept so far,
last element first.  An empty element or `.` vanishes; `..` removes the
element before it, vanishes at the start of a rooted path and is kept at the
start of a relative one. -/
def cleanParts (rooted : Bool) : List (List Char) → List (List Char) → List (List Char)
  | kept, [] => kept.reverse
  | kept, part :: parts =>
      if part = [] ∨ part = ['.'] then cleanParts rooted kept parts
      else if part = ['.', '.'] then
        match kept with
        | [] => if rooted then cleanParts rooted [] parts
                else cleanParts rooted [['.', '.']] parts
        | top :: rest =>
            if top = ['.', '.'] then cleanParts rooted (part :: top :: rest) parts
            else cleanParts rooted rest parts
      else cleanParts rooted (part :: kept) parts

/-- `path.IsAbs`. -/
def isAbs (p : String) : Bool :=
  p.toList.head? = some '/'

/-- `path.Clean`. -/
def clean (p : String) : String :=
  let parts := cleanParts (isAbs p) [] (splitSlash p.toList)
  if isAbs p then String.ofList ('/' :: joinSlash parts)
  else if parts = [] then "."
  else String.ofList (joinSlash parts)

/-- `path.Base`: the last element once trailing slashes are gone. -/
def base (p : String) : String :=
  if p = "" then "."
  else
    let stripped := (p.toList.reverse.dropWhile (· = '/')).reverse
    if stripped = [] then "/"
    else String.ofList ((splitSlash stripped).getLastD [])

/-- `path.Join` of two elements: empty ones are ignored. -/
def joinPath (a b : String) : String :=
  if a = "" then (if b = "" then "" else clean b)
  else if b = "" then clean a
  else clean (a ++ "/" ++ b)

example : clean "a//b/./../c/" = "a/c" := by decide

example : base "dist/app/" = "app" := by decide

end GoLib
