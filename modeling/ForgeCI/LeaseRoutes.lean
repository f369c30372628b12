import ForgeCI.Config
import ForgeCI.Segments

/-!
# The routes under a lease

A runner addresses the server by paths that hold the lease and names from the
pipeline.  `HandleLeaseRoute` picks the handler by testing the whole path for
suffixes and substrings in a fixed order.
-/

namespace RunnerProto

open Config Segments

/-- The characters `url.PathEscape` leaves alone. -/
def unreserved (c : Char) : Bool :=
  c.isAlphanum || ['-', '_', '.', '~', '$', '&', '+', ':', '=', '@'].contains c

def upperHex (n : Nat) : Char :=
  "0123456789ABCDEF".toList.getD n '0'

/-- `url.PathEscape`. -/
def pathEscape (s : String) : String :=
  String.ofList (s.toList.flatMap fun c =>
    if unreserved c then [c]
    else (String.utf8EncodeChar c).flatMap fun b =>
      ['%', upperHex (b.toNat / 16), upperHex (b.toNat % 16)])

def hexDigit? (c : Char) : Option Nat :=
  if c.isDigit then some (c.toNat - '0'.toNat)
  else if 'a' ≤ c ∧ c ≤ 'f' then some (c.toNat - 'a'.toNat + 10)
  else if 'A' ≤ c ∧ c ≤ 'F' then some (c.toNat - 'A'.toNat + 10)
  else none

/-- The decoding of a request path by `net/url`, an escape standing for the character
of its byte. -/
def unescape : List Char → Option (List Char)
  | [] => some []
  | '%' :: a :: b :: rest =>
      match hexDigit? a, hexDigit? b with
      | some x, some y => (unescape rest).map (Char.ofNat (16 * x + y) :: ·)
      | _, _ => none
  | '%' :: _ => none
  | c :: rest => (unescape rest).map (c :: ·)

/-- What a runner asks of the server under a lease. -/
inductive LeaseRequest where
  | source
  | cacheLookup (key : String)
  | cacheUpload (job digest : String)
  | cacheCommit (job : String)
  | artifactUpload (job digest : String)
  | artifactCommit (job : String)
  | artifactDownload (producer name : String)
  | appendLogs (job : String)
  | complete

/-- The paths of `downloadJobSnapshot`, `remoteCacheTransport`,
`runnerArtifactTransport`, `appendLogBatch` and `sendJobComplete`. -/
def LeaseRequest.path (lease : String) : LeaseRequest → String
  | .source => "/v1/runner/leases/" ++ lease ++ "/source"
  | .cacheLookup key => "/v1/runner/leases/" ++ lease ++ "/cache/" ++ pathEscape key
  | .cacheUpload job digest =>
      "/v1/runner/leases/" ++ lease ++ "/jobs/" ++ pathEscape job ++ "/cache-blobs/" ++ digest
  | .cacheCommit job =>
      "/v1/runner/leases/" ++ lease ++ "/jobs/" ++ pathEscape job ++ "/cache/commit"
  | .artifactUpload job digest =>
      "/v1/runner/leases/" ++ lease ++ "/jobs/" ++ pathEscape job ++ "/artifact-blobs/" ++ digest
  | .artifactCommit job =>
      "/v1/runner/leases/" ++ lease ++ "/jobs/" ++ pathEscape job ++ "/artifacts/commit"
  | .artifactDownload producer name =>
      "/v1/runner/leases/" ++ lease ++ "/artifacts/" ++ pathEscape producer ++ "/" ++
        pathEscape name
  | .appendLogs job => "/v1/runner/leases/" ++ lease ++ "/jobs/" ++ pathEscape job ++ "/logs"
  | .complete => "/v1/runner/leases/" ++ lease ++ "/complete"

/-- The handlers of lease routes. -/
inductive Handler where
  | source
  | cacheDownload
  | cacheUpload
  | cacheCommit
  | artifactUpload
  | artifactCommit
  | artifactDownload
  | jobLogAppend
  | completeRun
deriving DecidableEq

/-- The handler a request means. -/
def LeaseRequest.handler : LeaseRequest → Handler
  | .source => .source
  | .cacheLookup _ => .cacheDownload
  | .cacheUpload _ _ => .cacheUpload
  | .cacheCommit _ => .cacheCommit
  | .artifactUpload _ _ => .artifactUpload
  | .artifactCommit _ => .artifactCommit
  | .artifactDownload _ _ => .artifactDownload
  | .appendLogs _ => .jobLogAppend
  | .complete => .completeRun

/-- `strings.HasSuffix`. -/
def hasSuffix (path : List Char) (suffix : String) : Bool :=
  suffix.toList.isSuffixOf path

/-- `pathContains`: compare at every position at which the text still fits. -/
def pathContains (path : List Char) (substr : String) : Bool :=
  (List.range (path.length + 1 - substr.toList.length)).any fun i =>
    (path.drop i).take substr.toList.length = substr.toList

/-- `HandleLeaseRoute`; `none` is the reply 404. -/
def handleLeaseRoute (path : List Char) : Option Handler :=
  if hasSuffix path "/source" then some .source
  else if pathContains path "/cache-blobs/" then some .cacheUpload
  else if hasSuffix path "/cache/commit" then some .cacheCommit
  else if pathContains path "/cache/" then some .cacheDownload
  else if pathContains path "/artifact-blobs/" then some .artifactUpload
  else if hasSuffix path "/artifacts/commit" then some .artifactCommit
  else if pathContains path "/artifacts/" then some .artifactDownload
  else if pathContains path "/jobs/" && hasSuffix path "/logs" then some .jobLogAppend
  else if pathContains path "/complete" then some .completeRun
  else none

/-- The handler that gets the request of a runner. -/
def LeaseRequest.dispatched (lease : String) (req : LeaseRequest) : Option Handler :=
  (unescape (req.path lease).toList).bind handleLeaseRoute

theorem hasSuffix_iff {path : List Char} {suffix : String} :
    hasSuffix path suffix = true ↔ suffix.toList <:+ path :=
  List.isSuffixOf_iff_suffix

theorem pathContains_iff {path : List Char} {substr : String} :
    pathContains path substr = true ↔ substr.toList <:+: path := by
  simp only [pathContains, List.any_eq_true, List.mem_range, decide_eq_true_eq]
  constructor
  · rintro ⟨i, -, hi⟩
    refine ⟨path.take i, (path.drop i).drop substr.toList.length, ?_⟩
    calc path.take i ++ substr.toList ++ (path.drop i).drop substr.toList.length
        = path.take i ++ ((path.drop i).take substr.toList.length ++
            (path.drop i).drop substr.toList.length) := by rw [hi, List.append_assoc]
      _ = path := by rw [List.take_append_drop, List.take_append_drop]
  · rintro ⟨x, y, rfl⟩
    refine ⟨x.length, ?_, by simp⟩
    simp only [List.length_append]
    omega

/-- The same tests, of the segments of the path. -/
def routeSegments (segs : List String) : Option Handler :=
  if ["source"] <:+ segs then some .source
  else if "cache-blobs" ∈ segs.dropLast then some .cacheUpload
  else if ["cache", "commit"] <:+ segs then some .cacheCommit
  else if "cache" ∈ segs.dropLast then some .cacheDownload
  else if "artifact-blobs" ∈ segs.dropLast then some .artifactUpload
  else if ["artifacts", "commit"] <:+ segs then some .artifactCommit
  else if "artifacts" ∈ segs.dropLast then some .artifactDownload
  else if "jobs" ∈ segs.dropLast ∧ ["logs"] <:+ segs then some .jobLogAppend
  else if ∃ seg ∈ segs, "complete".toList <+: seg.toList then some .completeRun
  else none

/-- The text of a path. -/
def written (segs : List String) : List Char :=
  joined '/' (segs.map String.toList)

variable {segs : List String} {lease job producer name key digest : String}
variable {req : LeaseRequest} {cfg : Pipeline}

/-- No segment holds a slash. -/
def Plain (segs : List String) : Prop :=
  ∀ seg ∈ segs, '/' ∉ seg.toList

theorem Plain.toList (h : Plain segs) : ∀ s ∈ segs.map String.toList, '/' ∉ s := by
  intro s hs
  obtain ⟨seg, hseg, rfl⟩ := List.mem_map.1 hs
  exact h seg hseg

theorem toList_injective : Function.Injective String.toList :=
  fun _ _ h => String.toList_inj.1 h

theorem hasSuffix_written (suffix : String) (ws : List String) (h : Plain segs) (hws : Plain ws)
    (hsuffix : suffix.toList = written ws) :
    hasSuffix (written segs) suffix = true ↔ ws <:+ segs := by
  rw [hasSuffix_iff, hsuffix, written, written, suffix_joined_iff h.toList hws.toList,
    List.suffix_map_iff]
  constructor
  · rintro ⟨l, hl, heq⟩
    rwa [toList_injective.list_map heq]
  · intro hl
    exact ⟨ws, hl, rfl⟩

theorem pathContains_written (substr w : String) (h : Plain segs) (hw : '/' ∉ w.toList)
    (hsubstr : substr.toList = '/' :: (w.toList ++ ['/'])) :
    pathContains (written segs) substr = true ↔ w ∈ segs.dropLast := by
  rw [pathContains_iff, hsubstr, written, infix_closed_iff h.toList hw, ← List.map_dropLast,
    List.mem_map_of_injective toList_injective]

theorem pathContains_complete (h : Plain segs) :
    pathContains (written segs) "/complete" = true ↔
      ∃ seg ∈ segs, "complete".toList <+: seg.toList := by
  rw [pathContains_iff, show "/complete".toList = '/' :: "complete".toList from rfl, written,
    infix_open_iff h.toList (by decide)]
  simp

/-- **On a path of segments the dispatch tests the segments.** -/
theorem handleLeaseRoute_written (h : Plain segs) :
    handleLeaseRoute (written segs) = routeSegments segs := by
  have hwords : Plain ["source", "cache", "commit", "artifacts", "logs"] := by
    unfold Plain
    decide
  unfold handleLeaseRoute routeSegments
  simp only [hasSuffix_written "/source" ["source"] h (fun w hw => hwords w (by grind)) rfl,
    hasSuffix_written "/cache/commit" ["cache", "commit"] h (fun w hw => hwords w (by grind)) rfl,
    hasSuffix_written "/artifacts/commit" ["artifacts", "commit"] h
      (fun w hw => hwords w (by grind)) rfl,
    hasSuffix_written "/logs" ["logs"] h (fun w hw => hwords w (by grind)) rfl,
    pathContains_written "/cache-blobs/" "cache-blobs" h (by decide) rfl,
    pathContains_written "/cache/" "cache" h (by decide) rfl,
    pathContains_written "/artifact-blobs/" "artifact-blobs" h (by decide) rfl,
    pathContains_written "/artifacts/" "artifacts" h (by decide) rfl,
    pathContains_written "/jobs/" "jobs" h (by decide) rfl,
    pathContains_complete h, Bool.and_eq_true]

/-- The text of a UUID: 32 hexadecimal digits in groups of 8, 4, 4, 4 and 12. -/
def uuidText (s : String) : Bool :=
  s.toList.length = 36 && s.toList.zipIdx.all fun p =>
    if p.2 ∈ [8, 13, 18, 23] then p.1 = '-' else (hexDigit? p.1).isSome

/-- A digest as the stores write it: 64 lower-case hexadecimal digits. -/
def digestText (s : String) : Bool :=
  s.toList.length = 64 && s.toList.all fun c => c.isDigit || ('a' ≤ c && c ≤ 'f')

/-- The names in the request are names that `Validate` accepts. -/
def LeaseRequest.Accepted : LeaseRequest → Prop
  | .source | .complete => True
  | .cacheLookup key => cacheKeyPattern key = true
  | .cacheUpload job digest | .artifactUpload job digest =>
      jobNamePattern job = true ∧ digestText digest = true
  | .cacheCommit job | .artifactCommit job | .appendLogs job => jobNamePattern job = true
  | .artifactDownload producer name =>
      jobNamePattern producer = true ∧ artifactNamePattern name = true

/-- A character that stands for itself in a path. -/
def Literal (s : String) : Prop :=
  ∀ c ∈ s.toList, unreserved c = true

theorem literal_of_matchesPattern {extra : List Char} {limit : Option Nat} {s : String}
    (hextra : extra.all unreserved = true) (h : matchesPattern extra limit s = true) :
    Literal s := by
  unfold matchesPattern at h
  intro c hc
  cases hs : s.toList with
  | nil =>
    rw [hs] at hc
    cases hc
  | cons d cs => grind [unreserved]

theorem pathEscape_eq {s : String} (h : Literal s) : pathEscape s = s := by
  have hsame : (s.toList.flatMap fun c => if unreserved c then [c]
      else (String.utf8EncodeChar c).flatMap fun b =>
        ['%', upperHex (b.toNat / 16), upperHex (b.toNat % 16)]) = s.toList.flatMap ([·]) := by
    apply List.flatMap_congr
    intro c hc
    rw [if_pos (h c hc)]
  rw [pathEscape, hsame, List.flatMap_singleton', String.ofList_toList]

theorem unescape_eq {l : List Char} (h : '%' ∉ l) : unescape l = some l := by
  induction l with
  | nil => rfl
  | cons c rest ih =>
    have hc : c ≠ '%' := fun hc => h (by simp [hc])
    have hrest := ih fun hmem => h (List.mem_cons_of_mem _ hmem)
    unfold unescape
    grind

/-- A text without slash or percent sign. -/
def Clean (s : String) : Prop :=
  '/' ∉ s.toList ∧ '%' ∉ s.toList

instance (s : String) : Decidable (Clean s) :=
  inferInstanceAs (Decidable (¬ _ ∧ ¬ _))

theorem Literal.clean {s : String} (h : Literal s) : Clean s :=
  ⟨fun hc => absurd (h _ hc) (by decide), fun hc => absurd (h _ hc) (by decide)⟩

theorem uuidText_clean (h : uuidText lease = true) : Clean lease := by
  simp only [uuidText, Bool.and_eq_true, List.all_eq_true] at h
  have hchar : ∀ c ∈ lease.toList, c = '-' ∨ (hexDigit? c).isSome = true := by
    intro c hc
    obtain ⟨i, hi⟩ := List.mem_iff_getElem?.1 hc
    have := h.2 (c, i) (List.mem_zipIdx_iff_getElem?.2 hi)
    grind
  constructor <;>
  · intro hc
    rcases hchar _ hc with heq | hhex
    · exact absurd heq (by decide)
    · exact absurd hhex (by decide)

theorem digestText_clean (h : digestText digest = true) : Clean digest := by
  simp only [digestText, Bool.and_eq_true, List.all_eq_true] at h
  constructor <;>
  · intro hc
    exact absurd (h.2 _ hc) (by decide)

/-- The segments of the path of a request. -/
def LeaseRequest.segments (lease : String) (req : LeaseRequest) : List String :=
  ["v1", "runner", "leases", lease] ++ match req with
  | .source => ["source"]
  | .cacheLookup key => ["cache", key]
  | .cacheUpload job digest => ["jobs", job, "cache-blobs", digest]
  | .cacheCommit job => ["jobs", job, "cache", "commit"]
  | .artifactUpload job digest => ["jobs", job, "artifact-blobs", digest]
  | .artifactCommit job => ["jobs", job, "artifacts", "commit"]
  | .artifactDownload producer name => ["artifacts", producer, name]
  | .appendLogs job => ["jobs", job, "logs"]
  | .complete => ["complete"]

theorem clean_of_jobNamePattern (h : jobNamePattern job = true) : Clean job :=
  (literal_of_matchesPattern (by decide) h).clean

theorem LeaseRequest.Accepted.clean (h : req.Accepted) (hlease : uuidText lease = true) :
    ∀ seg ∈ req.segments lease, Clean seg := by
  have hwords : Clean "v1" ∧ Clean "runner" ∧ Clean "leases" ∧ Clean "source" ∧ Clean "cache" ∧
      Clean "jobs" ∧ Clean "cache-blobs" ∧ Clean "commit" ∧ Clean "artifact-blobs" ∧
      Clean "artifacts" ∧ Clean "logs" ∧ Clean "complete" := by decide
  have hlease := uuidText_clean hlease
  cases req with
  | source => simp [segments, hwords, hlease]
  | cacheLookup key =>
    have hkey : Clean key := (literal_of_matchesPattern (by decide) h).clean
    simp [segments, hwords, hlease, hkey]
  | cacheUpload job digest =>
    simp [segments, hwords, hlease, clean_of_jobNamePattern h.1, digestText_clean h.2]
  | cacheCommit job => simp [segments, hwords, hlease, clean_of_jobNamePattern h]
  | artifactUpload job digest =>
    simp [segments, hwords, hlease, clean_of_jobNamePattern h.1, digestText_clean h.2]
  | artifactCommit job => simp [segments, hwords, hlease, clean_of_jobNamePattern h]
  | artifactDownload producer name =>
    have hname : Clean name := (literal_of_matchesPattern (by decide) h.2).clean
    simp [segments, hwords, hlease, clean_of_jobNamePattern h.1, hname]
  | appendLogs job => simp [segments, hwords, hlease, clean_of_jobNamePattern h]
  | complete => simp [segments, hwords, hlease]

theorem pathEscape_of_jobNamePattern (h : jobNamePattern job = true) : pathEscape job = job :=
  pathEscape_eq (literal_of_matchesPattern (by decide) h)

/-- The names of an accepted request are not escaped. -/
theorem LeaseRequest.Accepted.path_toList (h : req.Accepted) (lease : String) :
    (req.path lease).toList = written (req.segments lease) := by
  cases req with
  | source =>
    show ("/v1/runner/leases/" ++ lease ++ "/source").toList = _
    simp only [String.toList_append, List.append_assoc]
    rfl
  | cacheLookup key =>
    have hkey : pathEscape key = key := pathEscape_eq (literal_of_matchesPattern (by decide) h)
    show ("/v1/runner/leases/" ++ lease ++ "/cache/" ++ pathEscape key).toList = _
    simp only [String.toList_append, List.append_assoc, hkey]
    rw [← List.append_nil key.toList]
    rfl
  | cacheUpload job digest =>
    show ("/v1/runner/leases/" ++ lease ++ "/jobs/" ++ pathEscape job ++ "/cache-blobs/" ++
      digest).toList = _
    simp only [String.toList_append, List.append_assoc, pathEscape_of_jobNamePattern h.1]
    rw [← List.append_nil digest.toList]
    rfl
  | cacheCommit job =>
    show ("/v1/runner/leases/" ++ lease ++ "/jobs/" ++ pathEscape job ++
      "/cache/commit").toList = _
    simp only [String.toList_append, List.append_assoc, pathEscape_of_jobNamePattern h]
    rfl
  | artifactUpload job digest =>
    show ("/v1/runner/leases/" ++ lease ++ "/jobs/" ++ pathEscape job ++ "/artifact-blobs/" ++
      digest).toList = _
    simp only [String.toList_append, List.append_assoc, pathEscape_of_jobNamePattern h.1]
    rw [← List.append_nil digest.toList]
    rfl
  | artifactCommit job =>
    show ("/v1/runner/leases/" ++ lease ++ "/jobs/" ++ pathEscape job ++
      "/artifacts/commit").toList = _
    simp only [String.toList_append, List.append_assoc, pathEscape_of_jobNamePattern h]
    rfl
  | artifactDownload producer name =>
    have hname : pathEscape name = name :=
      pathEscape_eq (literal_of_matchesPattern (by decide) h.2)
    show ("/v1/runner/leases/" ++ lease ++ "/artifacts/" ++ pathEscape producer ++ "/" ++
      pathEscape name).toList = _
    simp only [String.toList_append, List.append_assoc, pathEscape_of_jobNamePattern h.1, hname]
    rw [← List.append_nil name.toList]
    rfl
  | appendLogs job =>
    show ("/v1/runner/leases/" ++ lease ++ "/jobs/" ++ pathEscape job ++ "/logs").toList = _
    simp only [String.toList_append, List.append_assoc, pathEscape_of_jobNamePattern h]
    rfl
  | complete =>
    show ("/v1/runner/leases/" ++ lease ++ "/complete").toList = _
    simp only [String.toList_append, List.append_assoc]
    rfl

/-- **The dispatch of a request** sees the segments of its path. -/
theorem LeaseRequest.Accepted.dispatched_eq (h : req.Accepted) (hlease : uuidText lease = true) :
    req.dispatched lease = routeSegments (req.segments lease) := by
  have hclean := h.clean hlease
  have hpercent : '%' ∉ written (req.segments lease) := by
    simp only [written, joined, List.mem_flatMap, List.mem_map, not_exists, not_and]
    rintro s ⟨seg, hseg, rfl⟩ hmem
    rcases List.mem_cons.1 hmem with heq | hmem
    · exact absurd heq (by decide)
    · exact (hclean seg hseg).2 hmem
  rw [dispatched, h.path_toList, unescape_eq hpercent]
  exact handleLeaseRoute_written fun seg hseg => (hclean seg hseg).1

/-- No name in the request is a word that an earlier test looks for in its place. -/
def LeaseRequest.Clear : LeaseRequest → Prop
  | .source | .cacheUpload _ _ | .complete => True
  | .cacheLookup key => key ≠ "source" ∧ key ≠ "commit"
  | .cacheCommit job => job ≠ "cache-blobs"
  | .artifactUpload job _ => job ∉ ["cache-blobs", "cache"]
  | .artifactCommit job => job ∉ ["cache-blobs", "cache", "artifact-blobs"]
  | .artifactDownload producer name =>
      name ≠ "source" ∧ producer ∉ ["cache-blobs", "cache", "artifact-blobs"] ∧
        ¬ (producer = "artifacts" ∧ name = "commit")
  | .appendLogs job => job ∉ ["cache-blobs", "cache", "artifact-blobs", "artifacts"]

/-- A lease is not a route word. -/
theorem ne_lease {w : String} (hlease : uuidText lease = true) (hw : w.toList.length ≠ 36) :
    w ≠ lease := by
  rintro rfl
  simp only [uuidText, Bool.and_eq_true, decide_eq_true_eq] at hlease
  exact hw hlease.1

/-- Nor is a digest. -/
theorem ne_digest {w : String} (hdigest : digestText digest = true)
    (hw : w.toList.length ≠ 64) : w ≠ digest := by
  rintro rfl
  simp only [digestText, Bool.and_eq_true, decide_eq_true_eq] at hdigest
  exact hw hdigest.1

/-- **A request reaches the handler it means exactly when no name in it is a route
word** that `HandleLeaseRoute` looks for earlier. -/
theorem lease_routes (hlease : uuidText lease = true) (h : req.Accepted) :
    req.dispatched lease = some req.handler ↔ req.Clear := by
  have hwords : "cache-blobs" ≠ lease ∧ "cache" ≠ lease ∧ "artifact-blobs" ≠ lease ∧
      "artifacts" ≠ lease ∧ "jobs" ≠ lease :=
    ⟨ne_lease hlease (by decide), ne_lease hlease (by decide), ne_lease hlease (by decide),
      ne_lease hlease (by decide), ne_lease hlease (by decide)⟩
  rw [h.dispatched_eq hlease, LeaseRequest.segments.eq_def, routeSegments]
  -- What is left of the tests on each path compares its names with route words.
  cases req with
  | source => simp [LeaseRequest.handler, LeaseRequest.Clear, List.suffix_cons_iff]
  | cacheLookup key =>
      simp only [LeaseRequest.handler, LeaseRequest.Clear]
      simp [List.suffix_cons_iff, hwords]
      grind
  | cacheUpload job digest =>
      have hdigest : "source" ≠ digest := ne_digest h.2 (by decide)
      simp [LeaseRequest.handler, LeaseRequest.Clear, List.suffix_cons_iff, hdigest]
  | cacheCommit job =>
      simp only [LeaseRequest.handler, LeaseRequest.Clear]
      simp [List.suffix_cons_iff, hwords]
      grind
  | artifactUpload job digest =>
      have hdigest : "source" ≠ digest := ne_digest h.2 (by decide)
      simp only [LeaseRequest.handler, LeaseRequest.Clear]
      simp [List.suffix_cons_iff, hwords, hdigest]
      grind
  | artifactCommit job =>
      simp only [LeaseRequest.handler, LeaseRequest.Clear]
      simp [List.suffix_cons_iff, hwords]
      grind
  | artifactDownload producer name =>
      simp only [LeaseRequest.handler, LeaseRequest.Clear]
      simp [List.suffix_cons_iff, hwords]
      grind
  | appendLogs job =>
      simp only [LeaseRequest.handler, LeaseRequest.Clear]
      simp [List.suffix_cons_iff, hwords]
      grind
  | complete =>
      simp [LeaseRequest.handler, LeaseRequest.Clear, List.suffix_cons_iff, hwords]

/-- The names in the request stand in the pipeline. -/
def LeaseRequest.Declared (cfg : Pipeline) : LeaseRequest → Prop
  | .source | .complete => True
  | .cacheLookup key => ∃ name job, cfg.job? name = some job ∧
      ∃ entry ∈ job.cache.restore ++ job.cache.save, entry.key = key
  | .cacheUpload job digest | .artifactUpload job digest =>
      job ∈ cfg.names ∧ digestText digest = true
  | .cacheCommit job | .artifactCommit job | .appendLogs job => job ∈ cfg.names
  | .artifactDownload producer name => ∃ job, cfg.job? producer = some job ∧
      ∃ upload ∈ job.artifacts.upload, upload.name = name

theorem LeaseRequest.Declared.accepted (hcfg : validate cfg = .ok ()) (h : req.Declared cfg) :
    req.Accepted := by
  have hnamed := wellNamed_of_validate hcfg
  cases req with
  | source => trivial
  | cacheLookup key =>
    obtain ⟨name, job, hjob, entry, hentry, rfl⟩ := h
    exact hnamed.keys hjob hentry
  | cacheUpload job digest => exact ⟨hnamed.jobs job h.1, h.2⟩
  | cacheCommit job => exact hnamed.jobs job h
  | artifactUpload job digest => exact ⟨hnamed.jobs job h.1, h.2⟩
  | artifactCommit job => exact hnamed.jobs job h
  | artifactDownload producer name =>
    obtain ⟨job, hjob, upload, hupload, rfl⟩ := h
    have hname : producer ∈ cfg.names := Pipeline.job?_isSome_iff.1 (by rw [hjob]; rfl)
    exact ⟨hnamed.jobs producer hname, hnamed.artifacts hjob hupload⟩
  | appendLogs job => exact hnamed.jobs job h
  | complete => trivial

namespace Sample

def leaseID : String := "6f1f4c0e-8f6b-4a57-9d0b-2c4b7e1d9a33"

/-- A pipeline with a job named like a route. -/
def cacheJob : Pipeline where
  version := 1
  jobs := [("cache", { steps := ["make"] })]
  jobs_nodup := by decide

end Sample

/-- The logs of a job named `cache` go to the handler of cache downloads. -/
theorem cache_logs_captured :
    ¬ ∀ (cfg : Pipeline) (lease : String) (req : LeaseRequest), validate cfg = .ok () →
      uuidText lease = true → req.Declared cfg → req.dispatched lease = some req.handler := by
  intro h
  have hreached := h Sample.cacheJob Sample.leaseID (.appendLogs "cache") (by decide) (by decide)
    (List.mem_singleton_self _)
  have hcaptured : (LeaseRequest.appendLogs "cache").dispatched Sample.leaseID =
      some .cacheDownload := by decide
  rw [hcaptured] at hreached
  cases hreached

/-- What the same job saves in the cache is committed by the handler for that. -/
theorem cache_commit_reached :
    (LeaseRequest.cacheCommit "cache").dispatched Sample.leaseID = some .cacheCommit := by
  have hdeclared : (LeaseRequest.cacheCommit "cache").Declared Sample.cacheJob :=
    List.mem_singleton_self _
  exact (lease_routes (by decide) (hdeclared.accepted (by decide))).2
    (by unfold LeaseRequest.Clear; decide)

end RunnerProto
