import ForgeCI.PathValidators
import ForgeCI.RemoteRunner
import ForgeCI.SnapshotRoundTrip
import Mathlib.Algebra.Order.BigOperators.Group.List

/-!
# The sizes of two requests

A heartbeat lists the leases of a runner, and the commit of a job's artifacts lists its uploads.
Both bodies grow with the list, and the handlers decode 16 KiB.  `Register` bounds the leases of a
runner by a number of the runner's own choice, and `Validate` bounds neither the number of uploads
nor the length of a job's name.
-/

namespace RunnerProto

open FileTree JsonText Archive
open Artifact (utf8)

/-- `smallRequestLimit`. -/
def smallRequestLimit : Nat := 16 <<< 10

/-- The reader of `decodeStrict` reads no more than the limit. -/
def Fits (body : Bytes) : Prop := body.length ≤ smallRequestLimit

/-- Hexadecimal digits, from the highest on. -/
def hexDigits (n count : Nat) : Bytes :=
  (List.range count).map fun i => hexDigit (n / 16 ^ (count - 1 - i) % 16)

/-- The text of a UUID. -/
def uuidBytes (id : Postgres.Uuid) : Bytes :=
  hexDigits (id / 16 ^ 24) 8 ++ 0x2d :: (hexDigits (id / 16 ^ 20) 4 ++ 0x2d ::
    (hexDigits (id / 16 ^ 16) 4 ++ 0x2d :: (hexDigits (id / 16 ^ 12) 4 ++ 0x2d ::
      hexDigits id 12)))

/-- `json.Marshal` of an integer. -/
def integer (n : Int) : Bytes := if n < 0 then 0x2d :: number n.natAbs else number n.natAbs

/-- `json.Marshal` of a `LeaseHeartbeat`. -/
def leaseJson (l : Postgres.LeaseHeartbeat) : Bytes :=
  ascii "\x7b\"run_id\":" ++ string (uuidBytes l.runID) ++
    ascii ",\"job_name\":" ++ string (utf8 l.jobName) ++
    ascii ",\"lease_id\":" ++ string (uuidBytes l.leaseID) ++
    ascii ",\"generation\":" ++ number l.generation ++ ascii "\x7d"

/-- The body `sendHeartbeat` builds; `runnerID` is the text of the runner's id. -/
def heartbeatBody (runnerID : Bytes) (active : RemoteRunner.ActiveJobs) : Bytes :=
  ascii "\x7b\"leases\":" ++
    array leaseJson (active.jobs.map RemoteRunner.ActiveJob.heartbeat) ++
    ascii ",\"runner_id\":" ++ string runnerID ++ ascii "\x7d"

def rootKindText : Artifact.RootKind → String
  | .file => "file"
  | .directory => "directory"

/-- One of the `artifacts` of a commit. -/
def itemJson (m : Artifact.Metadata) : Bytes :=
  ascii "\x7b\"archive_size_bytes\":" ++ integer m.archiveSizeBytes ++
    ascii ",\"blob_sha256\":" ++ string m.blobSHA256 ++
    ascii ",\"content_sha256\":" ++ string m.contentSHA256 ++
    ascii ",\"entry_count\":" ++ integer m.entryCount ++
    ascii ",\"format\":" ++ string (ascii m.format) ++
    ascii ",\"logical_size_bytes\":" ++ integer m.logicalSizeBytes ++
    ascii ",\"name\":" ++ string m.name ++
    ascii ",\"root_kind\":" ++ string (ascii (rootKindText m.rootKind)) ++
    ascii ",\"root_name\":" ++ string m.rootName ++ ascii "\x7d"

/-- Who commits: `runnerArtifactTransport`. -/
structure Transport where
  runnerID : Bytes
  runID : Postgres.Uuid
  leaseID : Postgres.Uuid
  generation : Nat

/-- The body `Commit` builds. -/
def commitBody (t : Transport) (job : String) (metas : List Artifact.Metadata) : Bytes :=
  ascii "\x7b\"artifacts\":" ++ array itemJson metas ++
    ascii ",\"generation\":" ++ number t.generation ++
    ascii ",\"job_name\":" ++ string (utf8 job) ++
    ascii ",\"lease_id\":" ++ string (uuidBytes t.leaseID) ++
    ascii ",\"run_id\":" ++ string (uuidBytes t.runID) ++
    ascii ",\"runner_id\":" ++ string t.runnerID ++ ascii "\x7d"

variable {name : String} {extra : List Char} {limit : Option Nat}

theorem length_hexDigits (n count : Nat) : (hexDigits n count).length = count := by
  simp [hexDigits]

theorem plain_hexDigits {n count : Nat} {x : UInt8} (h : x ∈ hexDigits n count) :
    plain x = true := by
  obtain ⟨i, -, rfl⟩ := List.mem_map.1 h
  exact plain_hexDigit (Nat.mod_lt _ (by decide))

theorem length_string_uuidBytes (id : Postgres.Uuid) : (string (uuidBytes id)).length = 38 := by
  rw [length_string_plain]
  · simp [uuidBytes, length_hexDigits]
  · intro x hx
    simp only [uuidBytes, List.mem_append, List.mem_cons] at hx
    rcases hx with hx | rfl | hx | rfl | hx | rfl | hx | rfl | hx
    all_goals first | exact plain_hexDigits hx | decide

theorem toNat_lt_of_isAlphanum {c : Char} (h : c.isAlphanum = true) : c.toNat < 128 := by
  have hcases : (decide (c.val ≥ 'A'.val ∧ c.val ≤ 'Z'.val) ||
      (decide (c.val ≥ 'a'.val) && decide (c.val ≤ 'z'.val)) ||
      (decide (c.val ≥ '0'.val) && decide (c.val ≤ '9'.val))) = true := h
  simp only [Bool.or_eq_true, Bool.and_eq_true, decide_eq_true_eq, UInt32.le_iff_toNat_le]
    at hcases
  rcases hcases with (⟨-, hle⟩ | ⟨-, hle⟩) | ⟨-, hle⟩
  all_goals exact hle.trans_lt (by decide)

theorem plain_of_isAlphanum {c : Char} (h : c.isAlphanum = true) :
    plain (UInt8.ofNat c.toNat) = true := by
  have hall : ∀ n : Fin 128, (Char.ofNat n).isAlphanum = true →
      plain (UInt8.ofNat n) = true := by decide +kernel
  exact hall ⟨c.toNat, toNat_lt_of_isAlphanum h⟩ (by simpa using h)

/-- A name that matches one of the patterns is plain. -/
theorem plain_of_matchesPattern
    (hextra : extra.all fun c => c.toNat < 128 && plain (UInt8.ofNat c.toNat))
    (h : Config.matchesPattern extra limit name = true) : ∀ x ∈ utf8 name, plain x = true := by
  have hchars : ∀ c ∈ name.toList, c.isAlphanum = true ∨ c ∈ extra := by
    grind [Config.matchesPattern]
  intro x hx
  rw [Config.Raw.utf8_eq, List.mem_flatMap] at hx
  obtain ⟨c, hc, hx⟩ := hx
  have hplain : c.toNat < 128 ∧ plain (UInt8.ofNat c.toNat) = true := by
    rcases hchars c hc with halnum | hmem
    · exact ⟨toNat_lt_of_isAlphanum halnum, plain_of_isAlphanum halnum⟩
    · simpa using List.all_eq_true.1 hextra c hmem
  have hencode : ∀ n : Fin 128, String.utf8EncodeChar (Char.ofNat n) = [UInt8.ofNat n] := by decide
  have hc' := hencode ⟨c.toNat, hplain.1⟩
  rw [Char.ofNat_toNat] at hc'
  grind

theorem plain_jobName (h : Config.jobNamePattern name = true) : ∀ x ∈ utf8 name, plain x = true :=
  plain_of_matchesPattern (by decide) h

theorem plain_artifactName (h : Config.artifactNamePattern name = true) :
    ∀ x ∈ utf8 name, plain x = true :=
  plain_of_matchesPattern (by decide) h

theorem length_string_digest {b : Bytes} (h : b.length = 32) :
    (string (hexEncode b)).length = 66 := by
  rw [length_string_plain, length_hexEncode, h]
  intro x hx
  obtain ⟨n, hn, rfl⟩ := mem_hexEncode hx
  exact plain_hexDigit hn

/-- The bytes of a lease in a heartbeat, with the comma or bracket after it. -/
def leaseSize (j : RemoteRunner.ActiveJob) : Nat :=
  128 + (utf8 j.lease.jobName).length + (number j.lease.generation).length

theorem length_leaseJson {j : RemoteRunner.ActiveJob}
    (h : Config.jobNamePattern j.lease.jobName = true) :
    (leaseJson j.heartbeat).length + 1 = leaseSize j := by
  have hname : (string (utf8 j.heartbeat.jobName)).length = (utf8 j.lease.jobName).length + 2 :=
    length_string_plain (plain_jobName h)
  have hgeneration : j.heartbeat.generation = j.lease.generation := rfl
  unfold leaseJson leaseSize
  simp only [List.length_append, length_string_uuidBytes, hname, hgeneration]
  simp [ascii]
  omega

theorem smallRequestLimit_eq : smallRequestLimit = 16384 := rfl

/-- The brackets of an array and what its elements need; an empty one needs two bytes. -/
def listSize {α : Type} (size : α → Nat) (l : List α) : Nat :=
  if l = [] then 2 else 1 + (l.map size).sum

theorem length_array_eq {α β : Type} {enc : β → Bytes} {f : α → β} {size : α → Nat} {l : List α}
    (h : ∀ a ∈ l, (enc (f a)).length + 1 = size a) :
    (array enc (l.map f)).length = listSize size l := by
  have hsizes : (l.map f).map (fun b => (enc b).length + 1) = l.map size := by
    rw [List.map_map]
    exact List.map_congr_left h
  unfold listSize
  split_ifs with hl
  · subst hl
    rfl
  · rw [length_array _ (by simpa using hl), hsizes]

/-- **Which heartbeats are small enough.** -/
theorem heartbeat_fits_iff {runnerID : Bytes} {active : RemoteRunner.ActiveJobs}
    (h : ∀ j ∈ active.jobs, Config.jobNamePattern j.lease.jobName = true) :
    Fits (heartbeatBody runnerID active) ↔
      24 + (string runnerID).length + listSize leaseSize active.jobs ≤ smallRequestLimit := by
  have hleases := length_array_eq (f := RemoteRunner.ActiveJob.heartbeat)
    fun j hj => length_leaseJson (h j hj)
  unfold Fits heartbeatBody
  simp only [List.length_append, hleases]
  simp [ascii]
  omega

/-- The bytes of an artifact in a commit, with the comma or bracket after it. -/
def itemSize (m : Artifact.Metadata) : Nat :=
  296 + m.name.length + (string m.rootName).length + (rootKindText m.rootKind).length +
    (integer m.archiveSizeBytes).length + (integer m.entryCount).length +
    (integer m.logicalSizeBytes).length

/-- What `Capture` says of an upload. -/
def Captured (upload : Config.ArtifactUpload) (m : Artifact.Metadata) : Prop :=
  ∃ codec sum limits d source archive, (∀ b : Bytes, (sum b).length = 32) ∧
    Artifact.capture codec sum limits d source (utf8 upload.name) = .ok (m, archive)

theorem length_itemJson {upload : Config.ArtifactUpload} {m : Artifact.Metadata}
    (h : Captured upload m) (hname : Config.artifactNamePattern upload.name = true) :
    (itemJson m).length + 1 = itemSize m := by
  obtain ⟨codec, sum, limits, d, source, archive, hsum, hcapture⟩ := h
  obtain ⟨-, p, top, kind, entries, logical, -, -, -, -, hm⟩ := Artifact.capture_made hcapture
  have hplain : (string m.name).length = m.name.length + 2 := by
    rw [hm]
    exact length_string_plain (plain_artifactName hname)
  have hcontent : (string m.contentSHA256).length = 66 := by
    rw [hm]
    exact length_string_digest (hsum _)
  have hblob : (string m.blobSHA256).length = 66 := by
    rw [hm]
    exact length_string_digest (hsum _)
  have hformat : (string (ascii m.format)).length = 22 := by
    rw [hm]
    exact (by decide : (string (ascii Artifact.format)).length = 22)
  have hkind : (string (ascii (rootKindText m.rootKind))).length =
      (rootKindText m.rootKind).length + 2 := by
    cases m.rootKind <;> decide
  unfold itemJson itemSize
  simp only [List.length_append, hcontent, hblob, hplain, hformat, hkind]
  simp [ascii]
  omega

/-- **Which commits are small enough.** -/
theorem commit_fits_iff {t : Transport} {job : String} {uploads : List Config.ArtifactUpload}
    {metas : List Artifact.Metadata} (hjob : Config.jobNamePattern job = true)
    (hnames : ∀ upload ∈ uploads, Config.artifactNamePattern upload.name = true)
    (h : List.Forall₂ Captured uploads metas) :
    Fits (commitBody t job metas) ↔
      153 + (utf8 job).length + (number t.generation).length + (string t.runnerID).length +
        listSize itemSize metas ≤ smallRequestLimit := by
  have hitems : (array itemJson metas).length = listSize itemSize metas := by
    have hmap : (array itemJson (metas.map id)).length = listSize itemSize metas := by
      apply length_array_eq
      intro m hm
      obtain ⟨upload, hupload, hcaptured⟩ := Table.exists_old h hm
      exact length_itemJson hcaptured (hnames upload hupload)
    simpa using hmap
  have hname := length_string_plain (plain_jobName hjob)
  unfold Fits commitBody
  simp only [List.length_append, length_string_uuidBytes, hitems, hname]
  simp [ascii]
  omega

theorem listSize_le {α : Type} {size : α → Nat} {l : List α} {count bound : Nat}
    (hcount : l.length ≤ count) (hpos : 1 ≤ count) (hsize : ∀ a ∈ l, size a ≤ bound)
    (hbound : 1 ≤ bound) : listSize size l ≤ 1 + count * bound := by
  have hmul : 1 ≤ count * bound := Nat.mul_pos hpos hbound
  unfold listSize
  split_ifs with hl
  · omega
  · have hsum : (l.map size).sum ≤ l.length * bound := by
      have := List.sum_le_card_nsmul (l.map size) bound (by simpa using hsize)
      simpa using this
    have := Nat.mul_le_mul_right bound hcount
    omega

/-- **When the two requests are small enough.**  A heartbeat is when its leases need no more than
the limit, and all of a runner's heartbeats are when `max_parallel` of the largest lease fit; a
commit is when the uploads of its job need no more than the limit. -/
theorem requests_fit_iff (runnerID : Bytes) :
    (∀ (maxParallel : Nat) (active : RemoteRunner.ActiveJobs), 1 ≤ maxParallel →
      active.jobs.length ≤ maxParallel →
      (∀ j ∈ active.jobs, Config.jobNamePattern j.lease.jobName = true) →
      (Fits (heartbeatBody runnerID active) ↔
        24 + (string runnerID).length + listSize leaseSize active.jobs ≤ smallRequestLimit) ∧
      ∀ bound, 1 ≤ bound → (∀ j ∈ active.jobs, leaseSize j ≤ bound) →
        25 + (string runnerID).length + maxParallel * bound ≤ smallRequestLimit →
        Fits (heartbeatBody runnerID active)) ∧
    ∀ (cfg : Config.Pipeline) (name : String) (job : Config.Job) (t : Transport)
      (metas : List Artifact.Metadata), t.runnerID = runnerID → Config.validate cfg = .ok () →
      cfg.job? name = some job → List.Forall₂ Captured job.artifacts.upload metas →
      (Fits (commitBody t name metas) ↔
        153 + (utf8 name).length + (number t.generation).length + (string runnerID).length +
          listSize itemSize metas ≤ smallRequestLimit) := by
  constructor
  · intro maxParallel active hpos hlength hnames
    refine ⟨heartbeat_fits_iff hnames, ?_⟩
    intro bound hbound hsizes hfits
    have hlist := listSize_le hlength hpos hsizes hbound
    rw [heartbeat_fits_iff hnames]
    omega
  · intro cfg name job t metas hrunner hcfg hjob hcaptured
    have hnamed := Config.wellNamed_of_validate hcfg
    have hname : name ∈ cfg.names :=
      Config.Pipeline.job?_isSome_iff.1 (Option.isSome_iff_exists.2 ⟨job, hjob⟩)
    rw [← hrunner]
    exact commit_fits_iff (hnamed.jobs name hname)
      (fun upload hupload => hnamed.artifacts hjob hupload) hcaptured

theorem le_listSize {α : Type} {size : α → Nat} {l : List α} {bound : Nat}
    (hsize : ∀ a ∈ l, bound ≤ size a) : l.length * bound ≤ listSize size l := by
  unfold listSize
  split_ifs with hl
  · simp [hl]
  · have hsum : l.length * bound ≤ (l.map size).sum := by
      have := List.card_nsmul_le_sum (l.map size) bound (by simpa using hsize)
      simpa using this
    omega

namespace Sample

/-- A lease of the one-letter job. -/
def lease (id : Nat) : Postgres.JobLease :=
  ⟨1, "a", 7, id, 1, 100, ⟨none, ["make"], [], [], [], []⟩, ⟨"", "", "", 0, 0, 0⟩⟩

def active (count : Nat) : RemoteRunner.ActiveJobs where
  jobs := (List.range count).map fun id => ⟨lease id, false⟩
  distinct := by
    rw [List.map_map, show (RemoteRunner.ActiveJob.id ∘ fun id => ⟨lease id, false⟩) = id from rfl,
      List.map_id]
    exact List.nodup_range

theorem length_active (count : Nat) : (active count).jobs.length = count :=
  (List.length_map _).trans List.length_range

theorem active_names {count : Nat} {j : RemoteRunner.ActiveJob} (h : j ∈ (active count).jobs) :
    Config.jobNamePattern j.lease.jobName = true := by
  obtain ⟨id, -, rfl⟩ := List.mem_map.1 h
  exact (by decide : Config.jobNamePattern "a" = true)

/-- One file under 55 names of one letter or digit. -/
def uploads : List Config.ArtifactUpload :=
  "ABCDEFGHIJKLMNOPQRSTUVWXYZabcdefghijklmnopqrstuvwxyz012".toList.map fun c =>
    ⟨String.ofList [c], "bin"⟩

def pipeline (uploads : List Config.ArtifactUpload) : Config.Pipeline where
  version := 1
  jobs := [("build", { steps := ["make"], artifacts := { upload := uploads } })]
  jobs_nodup := List.nodup_singleton _

def sum : Bytes → Bytes := fun _ => List.replicate 32 0

/-- What is captured of the file. -/
def metadata (upload : Config.ArtifactUpload) : Artifact.Metadata :=
  ⟨utf8 upload.name, utf8 "bin", .file, hexEncode (sum []), hexEncode (sum []), Artifact.format,
    1, 1, 1⟩

theorem captured (upload : Config.ArtifactUpload) : Captured upload (metadata upload) := by
  have hcapture : Artifact.capture Artifact.Sample.contents sum defaultLimits Artifact.Sample.disk
      [utf8 "ws", utf8 "bin"] [] =
        .ok (⟨[], utf8 "bin", .file, hexEncode (sum []), hexEncode (sum []), Artifact.format,
          1, 1, 1⟩, [1]) := by
    decide +kernel
  exact ⟨_, _, _, _, _, _, by simp [sum], Artifact.capture_rename hcapture (utf8 upload.name)⟩

end Sample

/-- Small requests are small enough: three leases, and two uploads. -/
theorem smallest_requests_fit :
    Fits (heartbeatBody (uuidBytes 7) (Sample.active 3)) ∧
    Fits (commitBody ⟨uuidBytes 7, 1, 1, 1⟩ "build"
      [Sample.metadata ⟨"bin", "bin"⟩, Sample.metadata ⟨"lib", "bin"⟩]) := by
  have hpipeline : Config.validate (Sample.pipeline [⟨"bin", "bin"⟩, ⟨"lib", "bin"⟩]) = .ok () := by
    decide +kernel
  constructor
  · rw [((requests_fit_iff (uuidBytes 7)).1 3 (Sample.active 3) (by decide)
      (Sample.length_active 3).le fun _ => Sample.active_names).1, length_string_uuidBytes]
    decide +kernel
  · rw [(requests_fit_iff (uuidBytes 7)).2 (Sample.pipeline [⟨"bin", "bin"⟩, ⟨"lib", "bin"⟩])
      "build" _ _ _ rfl hpipeline rfl (.cons (Sample.captured _) (.cons (Sample.captured _) .nil)),
      length_string_uuidBytes]
    decide +kernel

/-- **Neither request is always small enough.**  A runner with 128 slots sends too long a heartbeat
once they are all taken, whatever its jobs are called, and a job with 55 uploads cannot commit
them. -/
theorem requests_unbounded :
    (¬ ∀ (runner : Postgres.Uuid) (maxParallel : Nat) (active : RemoteRunner.ActiveJobs),
      1 ≤ maxParallel → active.jobs.length ≤ maxParallel →
      (∀ j ∈ active.jobs, Config.jobNamePattern j.lease.jobName = true) →
      Fits (heartbeatBody (uuidBytes runner) active)) ∧
    ¬ ∀ (cfg : Config.Pipeline) (name : String) (job : Config.Job) (t : Transport)
      (metas : List Artifact.Metadata), Config.validate cfg = .ok () → cfg.job? name = some job →
      List.Forall₂ Captured job.artifacts.upload metas → Fits (commitBody t name metas) := by
  constructor
  · intro hall
    have hfits := hall 7 128 (Sample.active 128) (by decide) (Sample.length_active 128).le
      fun _ => Sample.active_names
    rw [heartbeat_fits_iff fun _ => Sample.active_names, length_string_uuidBytes,
      smallRequestLimit_eq] at hfits
    have hleases : ∀ j ∈ (Sample.active 128).jobs, 128 ≤ leaseSize j := by
      intro j _
      unfold leaseSize
      omega
    have hsize := le_listSize hleases
    rw [Sample.length_active] at hsize
    omega
  · intro hall
    have hcaptured : List.Forall₂ Captured Sample.uploads (Sample.uploads.map Sample.metadata) := by
      rw [List.forall₂_map_right_iff, List.forall₂_same]
      exact fun upload _ => Sample.captured upload
    have hnames : ∀ upload ∈ Sample.uploads,
        Config.artifactNamePattern upload.name = true := by decide +kernel
    have hfits := hall (Sample.pipeline Sample.uploads) "build" _ ⟨uuidBytes 7, 1, 1, 1⟩ _
      (by decide +kernel) rfl hcaptured
    rw [commit_fits_iff (by decide) hnames hcaptured, length_string_uuidBytes,
      smallRequestLimit_eq] at hfits
    have hitems : ∀ m ∈ Sample.uploads.map Sample.metadata, 296 ≤ itemSize m := by
      intro m _
      unfold itemSize
      omega
    have hsize := le_listSize hitems
    have hlength : (Sample.uploads.map Sample.metadata).length = 55 := by decide +kernel
    rw [hlength] at hsize
    omega

end RunnerProto
