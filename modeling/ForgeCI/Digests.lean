import ForgeCI.ArtifactArchives
import ForgeCI.Listings
import ForgeCI.Snapshots

/-!
# What a digest says about a tree

The digest of a tree is the hash of a JSON text.  JSON has no byte strings: a byte that begins no
code point is written as U+FFFD, and so is the character U+FFFD itself.  What the text keeps of a
name or a target is its `Runes.text`.
-/

namespace Archive

open FileTree JsonText

/-- What JSON keeps of an entry. -/
structure Written where
  path : List Char
  type : EntryType
  mode : Mode
  size : Nat
  sha256 : List Char
  target : List Char
deriving DecidableEq

def Entry.written (e : Entry) : Written :=
  ⟨Runes.text e.path, e.type, e.mode, e.size, Runes.text e.sha256, Runes.text e.target⟩

/-- A field that is left out when it has no value. -/
def present {α : Type*} [DecidableEq α] (zero a : α) : Option α := if a = zero then none else some a

variable {α : Type*}

theorem present_inj [DecidableEq α] {zero a b : α}
    (h : present zero a = present zero b) : a = b := by
  unfold present at h
  split_ifs at h with ha hb
  · rw [ha, hb]
  · exact Option.some.inj h

/-- The fields after the mode. -/
def Written.fields (e : Written) (r : Bytes) : Bytes :=
  optional (ascii ",\"size\":") number (present 0 e.size) ++
    (optional (ascii ",\"sha256\":") runeString (present [] e.sha256) ++
      (optional (ascii ",\"target\":") runeString (present [] e.target) ++ (ascii "\x7d" ++ r)))

/-- An entry in front of a text. -/
def Written.before (e : Written) (r : Bytes) : Bytes :=
  ascii "\x7b\"path\":" ++ (runeString e.path ++ (ascii ",\"type\":" ++
    (string (ascii e.type.name) ++ (ascii ",\"mode\":" ++ (number e.mode.toNat ++ e.fields r)))))

theorem optional_string (key b : Bytes) :
    optional key string (if b = [] then none else some b) =
      optional key runeString (present [] (Runes.text b)) := by
  by_cases hb : b = []
  · subst hb
    rfl
  · rw [if_neg hb, present, if_neg (Runes.text_eq_nil.not.2 hb)]
    rfl

theorem json_append (e : Entry) (r : Bytes) : e.json ++ r = e.written.before r := by
  unfold Entry.json
  rw [optional_string, optional_string]
  simp only [Written.before, Written.fields, Entry.written, string, List.append_assoc]
  rfl

/-- One of two keys is no beginning of a text that begins with the other. -/
theorem not_key_append {key key' r : Bytes} (h : key.isPrefixOf key' = false)
    (h' : key'.isPrefixOf key = false) : ¬key <+: key' ++ r := by
  intro hkey
  rcases List.prefix_or_prefix_of_prefix hkey (List.prefix_append key' r) with hle | hle
  · grind
  · grind

variable {r : Bytes}

/-- What follows the fields with other keys does not begin with a key. -/
theorem not_key_optional {enc : α → Bytes} {key key' : Bytes} {a : Option α}
    (h : key.isPrefixOf key' = false) (h' : key'.isPrefixOf key = false) (hr : ¬key <+: r) :
    ¬key <+: optional key' enc a ++ r := by
  cases a with
  | none => exact hr
  | some a =>
    have hsplit : optional key' enc (some a) ++ r = key' ++ (enc a ++ r) :=
      List.append_assoc _ _ _
    rw [hsplit]
    exact not_key_append h h'

/-- A field or the end of an object follows a number. -/
theorem noDigit_cons {b : UInt8} (h : ¬(0x30 ≤ b ∧ b ≤ 0x39)) : NoDigit (b :: r) := by
  intro x hx
  cases hx
  exact h

theorem noDigit_optional {enc : α → Bytes} {key : Bytes} {a : Option α}
    (hkey : ∃ rest, key = 0x2c :: rest) (hr : NoDigit r) : NoDigit (optional key enc a ++ r) := by
  cases a with
  | none => exact hr
  | some a =>
    obtain ⟨rest, rfl⟩ := hkey
    exact noDigit_cons (by decide)

/-- The fields that may be left out. -/
theorem fields_inj {e e' : Written} {r s : Bytes} (h : e.fields r = e'.fields s) :
    e.size = e'.size ∧ e.sha256 = e'.sha256 ∧ e.target = e'.target ∧ r = s := by
  have hclose : ∀ {key : Bytes}, (∃ rest, key = 0x2c :: rest) → ∀ r : Bytes,
      ¬key <+: ascii "\x7d" ++ r := by grind [ascii]
  have hnoDigit : ∀ (e : Written) (r : Bytes),
      NoDigit (optional (ascii ",\"sha256\":") runeString (present [] e.sha256) ++
        (optional (ascii ",\"target\":") runeString (present [] e.target) ++
          (ascii "\x7d" ++ r))) := by
    intro e r
    apply noDigit_optional ⟨_, rfl⟩
    apply noDigit_optional ⟨_, rfl⟩
    exact noDigit_cons (by decide)
  have hsize : ∀ (e : Written) (r : Bytes), ¬ascii ",\"size\":" <+:
      optional (ascii ",\"sha256\":") runeString (present [] e.sha256) ++
        (optional (ascii ",\"target\":") runeString (present [] e.target) ++
          (ascii "\x7d" ++ r)) := by
    intro e r
    apply not_key_optional (by decide) (by decide)
    apply not_key_optional (by decide) (by decide)
    exact hclose ⟨_, rfl⟩ r
  have hsha : ∀ (e : Written) (r : Bytes), ¬ascii ",\"sha256\":" <+:
      optional (ascii ",\"target\":") runeString (present [] e.target) ++ (ascii "\x7d" ++ r) := by
    intro e r
    apply not_key_optional (by decide) (by decide)
    exact hclose ⟨_, rfl⟩ r
  obtain ⟨h₁, h⟩ := readable_optional readable_number _ _ _ _ ⟨hnoDigit e r, hsize e r⟩
    ⟨hnoDigit e' s, hsize e' s⟩ h
  obtain ⟨h₂, h⟩ := readable_optional readable_string _ _ _ _ ⟨trivial, hsha e r⟩
    ⟨trivial, hsha e' s⟩ h
  obtain ⟨h₃, h⟩ := readable_optional readable_string _ _ _ _ ⟨trivial, hclose ⟨_, rfl⟩ r⟩
    ⟨trivial, hclose ⟨_, rfl⟩ s⟩ h
  exact ⟨present_inj h₁, present_inj h₂, present_inj h₃, List.append_cancel_left h⟩

theorem noDigit_fields (e : Written) (r : Bytes) : NoDigit (e.fields r) := by
  apply noDigit_optional ⟨_, rfl⟩
  apply noDigit_optional ⟨_, rfl⟩
  apply noDigit_optional ⟨_, rfl⟩
  exact noDigit_cons (by decide)

theorem typeName_inj {t t' : EntryType}
    (h : Runes.text (ascii t.name) = Runes.text (ascii t'.name)) : t = t' := by
  cases t <;> cases t' <;> first | rfl | exact absurd h (by decide +kernel)

theorem before_inj {e e' : Written} {r s : Bytes} (h : e.before r = e'.before s) :
    e = e' ∧ r = s := by
  obtain ⟨hpath, h⟩ := readable_string _ _ _ _ trivial trivial (List.append_cancel_left h)
  obtain ⟨htype, h⟩ := readable_string _ _ _ _ trivial trivial (List.append_cancel_left h)
  obtain ⟨hmode, h⟩ := readable_number _ _ _ _ (noDigit_fields e r) (noDigit_fields e' s)
    (List.append_cancel_left h)
  obtain ⟨hsize, hsha, htarget, hrs⟩ := fields_inj h
  refine ⟨?_, hrs⟩
  obtain ⟨path, type, mode, size, sha256, target⟩ := e
  obtain ⟨path', type', mode', size', sha256', target'⟩ := e'
  obtain rfl : path = path' := hpath
  obtain rfl : type = type' := typeName_inj htype
  obtain rfl : mode = mode' := BitVec.eq_of_toNat_eq hmode
  grind

/-- **An entry can be read**, up to what JSON does not keep. -/
theorem readable_entry : Readable Anything fun e : Written => e.before [] := by
  have hbefore : ∀ (e : Written) (r : Bytes), e.before [] ++ r = e.before r := by
    grind [Written.before, Written.fields]
  intro e e' r s _ _ h
  rw [hbefore, hbefore] at h
  exact before_inj h

theorem hexEncode_inj {b b' : Bytes} (h : hexEncode b = hexEncode b') : b = b' := by
  induction b generalizing b' with
  | nil =>
    cases b' with
    | nil => rfl
    | cons y ys => simp [hexEncode] at h
  | cons x xs ih =>
    cases b' with
    | nil => simp [hexEncode] at h
    | cons y ys =>
      simp only [hexEncode, List.flatMap_cons, List.cons_append, List.nil_append,
        List.cons.injEq] at h
      have hx := x.toNat_lt
      have hy := y.toNat_lt
      have hhigh : x.toNat / 16 = y.toNat / 16 := hexDigit_inj (by omega) (by omega) h.1
      have hlow : x.toNat % 16 = y.toNat % 16 := hexDigit_inj (by omega) (by omega) h.2.1
      have hbyte : x = y := UInt8.toNat_inj.1 (by omega)
      rw [hbyte, ih h.2.2]

/-- An empty list is not written like one that begins with an object. -/
def NoObject (empty : Bytes) : Prop := ∀ r s, empty ++ r ≠ 0x5b :: 0x7b :: s

theorem json_eq (e : Entry) : e.json = e.written.before [] := by
  rw [← json_append, List.append_nil]

theorem array_json (entries : List Entry) :
    array Entry.json entries =
      array (fun e : Written => e.before []) (entries.map Entry.written) := by
  rw [array_map]
  congr 1
  funext e
  exact json_eq e

theorem array_cons_eq (e : Entry) (entries : List Entry) :
    ∃ s, array Entry.json (e :: entries) = 0x5b :: 0x7b :: s :=
  ⟨_, rfl⟩

variable {es es' : List Entry}

variable {version : String}
  {empty : Bytes} {sum : Bytes → Bytes}

/-- **The text of a manifest keeps its entries**, up to what JSON does not keep. -/
theorem manifestJson_inj (hempty : NoObject empty)
    (h : manifestJson version empty es = manifestJson version empty es') :
    es.map Entry.written = es'.map Entry.written := by
  unfold manifestJson at h
  simp only [List.append_assoc] at h
  have h := List.append_cancel_left (List.append_cancel_left (List.append_cancel_left h))
  cases es with
  | nil =>
    cases es' with
    | nil => rfl
    | cons e' es' =>
      obtain ⟨s, hs⟩ := array_cons_eq e' es'
      grind [NoObject]
  | cons e es =>
    cases es' with
    | nil =>
      obtain ⟨s, hs⟩ := array_cons_eq e es
      grind [NoObject]
    | cons e' es' =>
      rw [if_neg (by simp), if_neg (by simp), array_json, array_json] at h
      have hbracket : ∀ (a : Written) (r s : Bytes), a.before [] ++ r ≠ 0x5d :: s := by
        intro a r s heq
        have hhead := congrArg List.head? heq
        simp [Written.before, ascii] at hhead
      exact (readable_array readable_entry hbracket _ _ _ _ trivial trivial h).1

theorem manifestJson_congr (h : es.map Entry.written = es'.map Entry.written) :
    manifestJson version empty es = manifestJson version empty es' := by
  have hnil : es = [] ↔ es' = [] := by
    rw [← List.map_eq_nil_iff (f := Entry.written), h, List.map_eq_nil_iff]
  grind [hnil.not, array_json, manifestJson]

/-- **The lists with the same digest** under a hash that is injective. -/
theorem digestManifest_eq_iff (hsum : Function.Injective sum) (hempty : NoObject empty) :
    digestManifest sum version empty es = digestManifest sum version empty es' ↔
      es.map Entry.written = es'.map Entry.written := by
  unfold digestManifest
  constructor
  · intro h
    exact manifestJson_inj hempty (List.append_cancel_right (hsum (hexEncode_inj h)))
  · intro h
    rw [manifestJson_congr h]

/-- An entry without the path of the host. -/
def Entry.hostless (e : Entry) : Entry := { e with host := [] }

theorem hexEncode_ascii (b : Bytes) : ∀ x ∈ hexEncode b, x < 0x80 := by
  have hdigit : ∀ n : Fin 16, hexDigit n < 0x80 := by decide
  intro x hx
  obtain ⟨n, hn, rfl⟩ := mem_hexEncode hx
  exact hdigit ⟨n, hn⟩

/-- The hashes in a listing are text. -/
theorem Package.scan_sha256 {pkg : Package} {limits : Limits} {d : Disk}
    {abs : List Bytes} {es : List Entry} {n : Nat}
    (h : pkg.scan sum limits d abs = .ok (es, n)) : ∀ e ∈ es, Runes.Valid e.sha256 := by
  obtain ⟨p, top, -, -, rfl⟩ := Package.scan_ok h
  intro e he
  have he := (List.perm_insertionSort _ _).mem_iff.1 he
  obtain ⟨rel, -, hentry⟩ := List.mem_filterMap.1 he
  obtain ⟨node, -, rfl⟩ := Option.map_eq_some_iff.1 hentry
  apply Runes.valid_of_ascii
  cases node with
  | file mode content => exact hexEncode_ascii _
  | _ => simp [entryOf]

/-- The names, hashes and link targets are valid UTF-8. -/
def Entry.Utf8 (e : Entry) : Prop :=
  Runes.Valid e.path ∧ Runes.Valid e.sha256 ∧ Runes.Valid e.target

/-- Entries without errors are known from what JSON keeps of them. -/
theorem hostless_eq {e e' : Entry} (he : e.Utf8) (he' : e'.Utf8) (h : e.written = e'.written) :
    e.hostless = e'.hostless := by
  obtain ⟨path, type, mode, size, sha256, target, host⟩ := e
  obtain ⟨path', type', mode', size', sha256', target', host'⟩ := e'
  simp only [Entry.written, Written.mk.injEq] at h
  obtain ⟨h₁, rfl, rfl, rfl, h₂, h₃⟩ := h
  obtain rfl := Runes.eq_of_text_eq he.1 he'.1 h₁
  obtain rfl := Runes.eq_of_text_eq he.2.1 he'.2.1 h₂
  obtain rfl := Runes.eq_of_text_eq he.2.2 he'.2.2 h₃
  rfl

theorem hostless_map_eq (hes : ∀ e ∈ es, e.Utf8) (hes' : ∀ e ∈ es', e.Utf8)
    (h : es.map Entry.written = es'.map Entry.written) :
    es.map Entry.hostless = es'.map Entry.hostless := by
  induction es generalizing es' with
  | nil =>
    obtain rfl : es' = [] := by simpa using h.symm
    rfl
  | cons e es ih =>
    cases es' with
    | nil => simp at h
    | cons e' es' =>
      rw [List.forall_mem_cons] at hes hes'
      simp only [List.map_cons, List.cons.injEq] at h ⊢
      exact ⟨hostless_eq hes.1 hes'.1 h.1, ih hes.2 hes'.2 h.2⟩

/-- Different lists that agree in the types, the modes, the sizes, the hashes and the text of the
names and targets: where they differ, one has a byte that begins no code point and the other one
another such byte, or a U+FFFD. -/
def Blurred (es es' : List Entry) : Prop :=
  es.map Entry.written = es'.map Entry.written ∧ es.map Entry.hostless ≠ es'.map Entry.hostless

/-- A digest tells a list from another one. -/
def Identifies (digest : List Entry → Bytes) (es es' : List Entry) : Prop :=
  digest es = digest es' → es.map Entry.hostless = es'.map Entry.hostless

theorem identifies_iff (hsum : Function.Injective sum) (hempty : NoObject empty) :
    Identifies (digestManifest sum version empty) es es' ↔ ¬Blurred es es' := by
  unfold Identifies Blurred
  rw [digestManifest_eq_iff hsum hempty]
  tauto

/-- **When a digest identifies a tree**: exactly when the other tree does not differ from it only
in what JSON does not keep.  Two trees whose names and targets are valid UTF-8 never do. -/
theorem digest_identifies (hsum : Function.Injective sum) :
    (∀ limits limits' d d' root root' es es' n n',
      Snapshot.scan sum limits d root = .ok (es, n) →
      Snapshot.scan sum limits' d' root' = .ok (es', n') →
      (Identifies (Snapshot.digestManifest sum) es es' ↔ ¬Blurred es es') ∧
        ((∀ e ∈ es ++ es', Runes.Valid e.path ∧ Runes.Valid e.target) →
          Identifies (Snapshot.digestManifest sum) es es')) ∧
    ∀ limits limits' d d' source source' root root' es es' n n',
      Artifact.scan sum limits d source root = .ok (es, n) →
      Artifact.scan sum limits' d' source' root' = .ok (es', n') →
      (Identifies (Artifact.digestManifest sum) es es' ↔ ¬Blurred es es') ∧
        ((∀ e ∈ es ++ es', Runes.Valid e.path ∧ Runes.Valid e.target) →
          Identifies (Artifact.digestManifest sum) es es') := by
  have hbrackets : NoObject (ascii "[]") := by
    intro r s h
    simp [ascii] at h
  have hnull : NoObject (ascii "null") := by
    intro r s h
    simp [ascii] at h
  have hclear : ∀ {es es' : List Entry}, (∀ e ∈ es, Runes.Valid e.sha256) →
      (∀ e ∈ es', Runes.Valid e.sha256) →
      (∀ e ∈ es ++ es', Runes.Valid e.path ∧ Runes.Valid e.target) → ¬Blurred es es' := by
    rintro es es' hsha hsha' hvalid ⟨hsame, hne⟩
    refine hne (hostless_map_eq (fun e he => ?_) (fun e he => ?_) hsame)
    · have := hvalid e (List.mem_append_left _ he)
      exact ⟨this.1, hsha e he, this.2⟩
    · have := hvalid e (List.mem_append_right _ he)
      exact ⟨this.1, hsha' e he, this.2⟩
  refine ⟨?_, ?_⟩
  · intro limits limits' d d' root root' es es' n n' h h'
    have hexact : Identifies (Snapshot.digestManifest sum) es es' ↔ ¬Blurred es es' :=
      identifies_iff hsum hbrackets
    exact ⟨hexact, fun hvalid =>
      hexact.2 (hclear (Package.scan_sha256 h) (Package.scan_sha256 h') hvalid)⟩
  · intro limits limits' d d' source source' root root' es es' n n' h h'
    have hexact : Identifies (Artifact.digestManifest sum) es es' ↔ ¬Blurred es es' :=
      identifies_iff hsum hnull
    exact ⟨hexact, fun hvalid =>
      hexact.2 (hclear (Package.scan_sha256 h) (Package.scan_sha256 h') hvalid)⟩

namespace Sample

/-- A directory with one empty file of this name. -/
def holding (name : Bytes) : Disk :=
  ((Disk.blank 0o755#9).plant [] (ascii "out") (.dir 0o755#9)).plant [ascii "out"] name
    (.file 0o644#9 [])

/-- The entry of the file in a listing of its directory. -/
def fileEntry (path name : Bytes) : Entry :=
  ⟨path, .file, 0o644#9, 0, [], [], [ascii "out", name]⟩

/-- The entry of the directory in a listing of an artifact. -/
def rootEntry : Entry := ⟨ascii "out", .directory, 0o755#9, 0, [], [], [ascii "out"]⟩

end Sample

theorem digest_identifies_plain :
    Identifies (Snapshot.digestManifest id) [Sample.fileEntry (ascii "a") (ascii "a")]
      [Sample.fileEntry (ascii "b") (ascii "b")] := by
  have ha : Snapshot.scan id defaultLimits (Sample.holding (ascii "a")) [ascii "out"] =
      .ok ([Sample.fileEntry (ascii "a") (ascii "a")], 0) := by decide +kernel
  have hb : Snapshot.scan id defaultLimits (Sample.holding (ascii "b")) [ascii "out"] =
      .ok ([Sample.fileEntry (ascii "b") (ascii "b")], 0) := by decide +kernel
  have hvalid : Runes.Valid (ascii "a") ∧ Runes.Valid (ascii "b") ∧ Runes.Valid [] := by
    decide +kernel
  apply ((digest_identifies Function.injective_id).1 _ _ _ _ _ _ _ _ _ _ ha hb).2
  intro e he
  rcases List.mem_append.1 he with he | he
  · obtain rfl := List.mem_singleton.1 he
    exact ⟨hvalid.1, hvalid.2.2⟩
  · obtain rfl := List.mem_singleton.1 he
    exact hvalid.2

/-- Two names that JSON writes in the same way. -/
theorem digests_collide : Function.Injective (id : Bytes → Bytes) ∧
    (∃ d d' root es es' n n', Snapshot.scan id defaultLimits d root = .ok (es, n) ∧
      Snapshot.scan id defaultLimits d' root = .ok (es', n') ∧
      Snapshot.digestManifest id es = Snapshot.digestManifest id es' ∧
      es.map Entry.hostless ≠ es'.map Entry.hostless) ∧
    ∃ d d' source root es es' n n', Artifact.scan id defaultLimits d source root = .ok (es, n) ∧
      Artifact.scan id defaultLimits d' source root = .ok (es', n') ∧
      Artifact.digestManifest id es = Artifact.digestManifest id es' ∧
      es.map Entry.hostless ≠ es'.map Entry.hostless := by
  refine ⟨Function.injective_id, ⟨Sample.holding [0xff], Sample.holding [0xfe], [ascii "out"],
    [Sample.fileEntry [0xff] [0xff]], [Sample.fileEntry [0xfe] [0xfe]], 0, 0, ?_⟩,
    ⟨Sample.holding [0xff], Sample.holding [0xfe], [ascii "out"], ascii "out",
    [Sample.rootEntry, Sample.fileEntry (ascii "out/" ++ [0xff]) [0xff]],
    [Sample.rootEntry, Sample.fileEntry (ascii "out/" ++ [0xfe]) [0xfe]], 0, 0, ?_⟩⟩
  · decide +kernel
  · decide +kernel

end Archive
