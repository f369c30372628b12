import ForgeCI.Captures
import ForgeCI.Config
import ForgeCI.LinkEvaluation

/-!
# Publishing artifacts

`Publish` of a local and of a remote session.  All archives are made before the first of them is
sent, and a source is looked for in the resolved directory of its path, which must lie in the
workspace.

The disk does not change during a publication.  How the other calls end is given: making a
temporary file, opening and closing an archive, sending and committing it.
-/

namespace Artifact

open FileTree Archive Effects

/-- The bytes of a string. -/
def utf8 (s : String) : Bytes := s.toUTF8.data.toList

inductive SourceError
  /-- `resolve upload path: …`. -/
  | unresolved (errno : Errno)
  /-- `upload path escapes workspace`. -/
  | escapes

/-- An error; `AsPipelineError` marks those that the pipeline has caused. -/
inductive PublishError
  /-- `artifact "…": …`, marked. -/
  | source (name : Bytes) (inner : SourceError)
  | pipeline (inner : Failure)
  | plain (inner : Failure)

structure Record where
  producer : String
  metadata : Metadata

def Record.key (r : Record) : Bytes := utf8 r.producer ++ 0 :: r.metadata.name

/-- What leaves the process: an archive for the store or the transport, and a commit. -/
inductive Effect
  | send (metadata : Metadata) (archive : Bytes)
  | commit (job : String) (metas : List Metadata)

/-- How the calls for each archive end, and the call that commits. -/
structure Calls where
  temp : Nat → Option Failure
  opens : Nat → Option Failure
  send : Nat → Option Failure
  close : Nat → Option Failure
  commit : Option Failure

structure Publishing where
  effects : List Effect := []
  records : List Record := []

/-- A failed publication leaves the effects it has had. -/
abbrev Publication := EStateM PublishError Publishing

structure Session where
  workspace : List Bytes
  limits : Limits
deriving DecidableEq

/-- `NewSession`, for the absolute path of a workspace. -/
def newSession (d : Disk) (abs : List Bytes) (limits : Limits) : Except Failure Session :=
  match d.evalSymlinks abs with
  | .error e => .error (.call e)
  | .ok resolved => .ok ⟨resolved, limits⟩

def Session.safeSource (s : Session) (d : Disk) (relative : Bytes) :
    Except SourceError (List Bytes) :=
  let candidate := join s.workspace relative
  match d.evalSymlinks candidate.dropLast with
  | .error e => .error (.unresolved e)
  | .ok parent =>
      if within s.workspace parent = false then .error .escapes
      else .ok (join parent (base candidate))

section Publish

variable (codec : Codec) (sum : Bytes → Bytes) (d : Disk) (calls : Calls)

/-- The first loop, for one item. -/
def Session.captureItem (s : Session) (i : Nat) (item : Config.ArtifactUpload) :
    Except PublishError (Metadata × Bytes) :=
  match s.safeSource d (utf8 item.path) with
  | .error e => .error (.source (utf8 item.name) e)
  | .ok source =>
      match calls.temp i with
      | some e => .error (.plain e)
      | none =>
          match capture codec sum s.limits d source (utf8 item.name) with
          | .error e => .error (.pipeline e)
          | .ok captured => .ok captured

def Session.captureItems (s : Session) :
    Nat → List Config.ArtifactUpload → Except PublishError (List (Metadata × Bytes))
  | _, [] => .ok []
  | i, item :: items =>
      match s.captureItem codec sum d calls i item with
      | .error e => .error e
      | .ok captured =>
          match s.captureItems (i + 1) items with
          | .error e => .error e
          | .ok rest => .ok (captured :: rest)

/-- Go on unless a call has failed. -/
def check : Option Failure → Publication Unit
  | none => pure ()
  | some e => throw (.plain e)

def emit (effect : Effect) : Publication Unit :=
  modify fun p => { p with effects := p.effects ++ [effect] }

/-- The second loop; `pardons` are the errors of closing that do not matter. -/
def sendItems (pardons : Failure → Bool) : Nat → List (Metadata × Bytes) → Publication Unit
  | _, [] => pure ()
  | i, (metadata, archive) :: rest => do
      check (calls.opens i)
      emit (.send metadata archive)
      check (calls.send i)
      check ((calls.close i).filter fun e => !pardons e)
      sendItems pardons (i + 1) rest

/-- What both sessions do up to the commit. -/
def Session.publishItems (s : Session) (pardons : Failure → Bool)
    (finish : List Metadata → Publication Unit) (items : List Config.ArtifactUpload) :
    Publication Unit :=
  if items = [] then pure ()
  else match s.captureItems codec sum d calls 0 items with
    | .error e => throw e
    | .ok captured => do
        sendItems calls pardons 0 captured
        finish (captured.map Prod.fst)

/-- Keep the record of an artifact; one that is kept already must be the same. -/
def keepRecord (r : Record) : Publication Unit := do
  let p ← get
  match p.records.find? fun old => old.key = r.key with
  | none => set { p with records := p.records ++ [r] }
  | some old =>
      if old.metadata ≠ r.metadata then
        throw (.plain (.text "conflicting artifact publication"))
      else pure ()

def commitItems (job : String) (metas : List Metadata) : Publication Unit := do
  emit (.commit job metas)
  check calls.commit

/-- `Session.Publish`; a session may have a callback that commits. -/
def Session.publish (s : Session) (commits : Bool) (job : String) :
    List Config.ArtifactUpload → Publication Unit :=
  s.publishItems codec sum d calls (fun _ => false) fun metas => do
    (if commits then commitItems calls job metas else pure ())
    metas.forM fun metadata => keepRecord ⟨job, metadata⟩

/-- `os.ErrClosed`. -/
def errClosed : Failure := .text "file already closed"

/-- `RemoteSession.Publish`. -/
def Session.publishRemote (s : Session) (job : String) :
    List Config.ArtifactUpload → Publication Unit :=
  s.publishItems codec sum d calls (fun e => e = errClosed) (commitItems calls job)

end Publish

variable {codec : Codec} {sum : Bytes → Bytes} {d : Disk} {calls : Calls} {s : Session}
  {items : List Config.ArtifactUpload} {item : Config.ArtifactUpload} {source : List Bytes}

theorem prefix_of_within {root candidate : List Bytes} (h : within root candidate = true) :
    root <+: candidate := by
  have hups : ∀ r : Bytes, ∀ root rest : List Bytes,
      (Lexical.ups dot (r :: root).length ++ rest).head? = some [dot, dot] := by
    grind [Lexical.ups_succ]
  rw [within, decide_eq_true_iff] at h
  induction root generalizing candidate with
  | nil => exact List.nil_prefix
  | cons r root ih =>
    cases candidate with
    | nil =>
      rw [rel] at h
      exact absurd (by simpa using hups r root []) h
    | cons c candidate => grind [rel]

theorem names_join {host : List Bytes} (hhost : ∀ part ∈ host, Name part) (name : Bytes) :
    ∀ part ∈ join host name, Name part := by
  apply Lexical.names_cleanParts
  · intro part hpart
    rcases List.mem_append.1 hpart with hpart | hpart
    · exact (hhost part hpart).slash_free
    · exact Lexical.slash_free_of_mem_split hpart
  · simp

/-- **A source lies in a physical directory of the workspace.** -/
theorem safeSource_ok (hnames : ∀ part ∈ s.workspace, Name part) {relative : Bytes}
    (h : s.safeSource d relative = .ok source) (hsource : source ≠ []) :
    ∃ parent last, source = parent ++ [last] ∧ Name last ∧ d.Physical parent ∧
      s.workspace <+: parent := by
  have hcandidate := names_join hnames relative
  unfold Session.safeSource at h
  dsimp only at h
  cases heval : d.evalSymlinks (join s.workspace relative).dropLast with
  | error e => simp [heval] at h
  | ok parent =>
    simp only [heval] at h
    split_ifs at h with hwithin
    have hphysical : d.Physical parent := Disk.evalSymlinks_physical
      (fun part hpart => (hcandidate part (List.mem_of_mem_dropLast hpart)).slash_free) heval
    have hpre := prefix_of_within (by simpa using hwithin)
    have hjoin : source = join parent (base (join s.workspace relative)) :=
      (Except.ok.inj h).symm
    rcases List.eq_nil_or_concat' (join s.workspace relative) with hnil | ⟨init, last, hlast⟩
    · rw [hnil] at heval hjoin
      obtain rfl : parent = [] := (Except.ok.inj heval).symm
      exact absurd hjoin hsource
    · have hname : Name last := hcandidate last (by simp [hlast])
      have hsafe : Safe [last] := ⟨by simp, by simpa using hname⟩
      have hbase : base (init ++ [last]) = path [last] := by simp [base, path]
      rw [hlast, hbase, join_path hphysical.names hsafe] at hjoin
      exact ⟨parent, last, hjoin, hname, hphysical, hpre⟩

/-- The archive of an item was read in the workspace. -/
def ReadsWorkspace (codec : Codec) (sum : Bytes → Bytes) (d : Disk) (s : Session)
    (item : Config.ArtifactUpload) (archive : Bytes) : Prop :=
  ∃ source entries, s.safeSource d (utf8 item.path) = .ok source ∧
    Holds codec sum s.limits d source archive entries ∧ ReadsBeneath d s.workspace entries

theorem captureItem_ok (hnames : ∀ part ∈ s.workspace, Name part) {i : Nat}
    {captured : Metadata × Bytes} (h : s.captureItem codec sum d calls i item = .ok captured) :
    ReadsWorkspace codec sum d s item captured.2 := by
  obtain ⟨metadata, archive⟩ := captured
  unfold Session.captureItem at h
  cases hsource : s.safeSource d (utf8 item.path) with
  | error e => simp [hsource] at h
  | ok source =>
    simp only [hsource] at h
    cases htemp : calls.temp i with
    | some e => simp [htemp] at h
    | none =>
      simp only [htemp] at h
      cases hcapture : capture codec sum s.limits d source (utf8 item.name) with
      | error e => simp [hcapture] at h
      | ok result =>
        simp only [hcapture] at h
        cases h
        obtain ⟨⟨p, top, htop⟩, entries, hholds⟩ := capture_ok hcapture
        refine ⟨source, entries, hsource, hholds, ?_⟩
        obtain ⟨parent, last, rfl, hname, hphysical, hpre⟩ :=
          safeSource_ok hnames hsource hholds.source_ne_nil
        obtain ⟨rfl, -⟩ := hphysical.lstat_concat hname htop
        apply (hholds.readsBeneath_iff htop _).2
        exact fun rel mode content _ => beneath_of_within hpre

theorem captureItems_ok (hnames : ∀ part ∈ s.workspace, Name part) {i : Nat}
    {captured : List (Metadata × Bytes)}
    (h : s.captureItems codec sum d calls i items = .ok captured) :
    (∀ result ∈ captured, ∃ item ∈ items, ReadsWorkspace codec sum d s item result.2) ∧
      ∀ item ∈ items, ∃ archive, ReadsWorkspace codec sum d s item archive := by
  induction items generalizing i captured with
  | nil =>
    cases h
    simp
  | cons item items ih =>
    rw [Session.captureItems] at h
    cases hone : s.captureItem codec sum d calls i item with
    | error e => simp [hone] at h
    | ok result =>
      simp only [hone] at h
      cases hrest : s.captureItems codec sum d calls (i + 1) items with
      | error e => simp [hrest] at h
      | ok rest =>
        simp only [hrest] at h
        cases h
        have hread := captureItem_ok hnames hone
        grind

/-- What has been sent was read in the workspace. -/
def SentFromWorkspace (codec : Codec) (sum : Bytes → Bytes) (d : Disk) (s : Session)
    (items : List Config.ArtifactUpload) (p : Publishing) : Prop :=
  ∀ metadata archive, .send metadata archive ∈ p.effects →
    ∃ item ∈ items, ReadsWorkspace codec sum d s item archive

theorem check_ensures {P : Publishing → Prop} (outcome : Option Failure) :
    Ensures P (check outcome) (fun _ => P) P := by
  cases outcome with
  | none => exact .pure fun _ h => h
  | some e => exact .throw fun _ h => h

theorem emit_send_ensures {metadata : Metadata} {archive : Bytes}
    (h : ∃ item ∈ items, ReadsWorkspace codec sum d s item archive) :
    Ensures (SentFromWorkspace codec sum d s items) (emit (.send metadata archive))
      (fun _ => SentFromWorkspace codec sum d s items) (SentFromWorkspace codec sum d s items) := by
  intro p hp metadata' archive' hsend
  grind [ReadsWorkspace, Ensures, SentFromWorkspace]

theorem commitItems_ensures (job : String) (metas : List Metadata) :
    Ensures (SentFromWorkspace codec sum d s items) (commitItems calls job metas)
      (fun _ => SentFromWorkspace codec sum d s items) (SentFromWorkspace codec sum d s items) := by
  refine Ensures.bind (Q := fun _ => SentFromWorkspace codec sum d s items) ?_ fun _ =>
    check_ensures _
  intro p hp metadata archive hsend
  grind [Ensures, SentFromWorkspace]

theorem keepRecord_ensures (r : Record) :
    Ensures (SentFromWorkspace codec sum d s items) (keepRecord r)
      (fun _ => SentFromWorkspace codec sum d s items) (SentFromWorkspace codec sum d s items) := by
  apply Ensures.get_bind
  intro p hp
  split
  · rintro _ rfl
    exact hp
  · apply Ensures.ite
    · grind [Ensures.throw]
    · grind [Ensures.pure]

theorem sendItems_ensures (pardons : Failure → Bool) {captured : List (Metadata × Bytes)} (i : Nat)
    (h : ∀ result ∈ captured, ∃ item ∈ items, ReadsWorkspace codec sum d s item result.2) :
    Ensures (SentFromWorkspace codec sum d s items) (sendItems calls pardons i captured)
      (fun _ => SentFromWorkspace codec sum d s items) (SentFromWorkspace codec sum d s items) := by
  induction captured generalizing i with
  | nil => exact .pure fun _ hp => hp
  | cons result rest ih =>
    obtain ⟨hone, hrest⟩ := List.forall_mem_cons.1 h
    obtain ⟨metadata, archive⟩ := result
    exact (check_ensures _).bind fun _ => (emit_send_ensures hone).bind fun _ =>
      (check_ensures _).bind fun _ => (check_ensures _).bind fun _ => ih (i + 1) hrest

/-- The second half of a publication is reached with archives of the workspace only. -/
theorem publishItems_ensures (hnames : ∀ part ∈ s.workspace, Name part)
    (pardons : Failure → Bool) {finish : List Metadata → Publication Unit}
    (hfinish : ∀ metas, Ensures (SentFromWorkspace codec sum d s items) (finish metas)
      (fun _ => SentFromWorkspace codec sum d s items) (SentFromWorkspace codec sum d s items)) :
    Ensures (SentFromWorkspace codec sum d s items)
      (s.publishItems codec sum d calls pardons finish items)
      (fun _ => SentFromWorkspace codec sum d s items) (SentFromWorkspace codec sum d s items) := by
  unfold Session.publishItems
  apply Ensures.ite
  · intro _
    exact .pure fun _ hp => hp
  · intro _
    cases hcapture : s.captureItems codec sum d calls 0 items with
    | error e => exact .throw fun _ hp => hp
    | ok captured =>
      obtain ⟨hread, -⟩ := captureItems_ok hnames hcapture
      exact (sendItems_ensures pardons 0 hread).bind fun _ => hfinish _

/-- An item that cannot be read in the workspace stops a publication before it begins. -/
theorem publishItems_stops (hnames : ∀ part ∈ s.workspace, Name part)
    (pardons : Failure → Bool) (finish : List Metadata → Publication Unit)
    (h : ∃ item ∈ items, ∀ archive, ¬ReadsWorkspace codec sum d s item archive) (p : Publishing) :
    ∃ e, s.publishItems codec sum d calls pardons finish items p = .error e p := by
  obtain ⟨item, hitem, hnot⟩ := h
  unfold Session.publishItems
  rw [if_neg (List.ne_nil_of_mem hitem)]
  cases hcapture : s.captureItems codec sum d calls 0 items with
  | error e => exact ⟨e, rfl⟩
  | ok captured =>
    obtain ⟨archive, hread⟩ := (captureItems_ok hnames hcapture).2 item hitem
    exact absurd hread (hnot archive)

theorem newSession_names {d₀ : Disk} {abs : List Bytes} {limits : Limits}
    (habs : ∀ part ∈ abs, Name part) (h : newSession d₀ abs limits = .ok s) :
    ∀ part ∈ s.workspace, Name part := by
  unfold newSession at h
  cases heval : d₀.evalSymlinks abs with
  | error e => simp [heval] at h
  | ok resolved =>
    simp only [heval] at h
    cases h
    have hfree : ∀ part ∈ abs, slash ∉ part := fun part hpart => (habs part hpart).slash_free
    exact (Disk.evalSymlinks_physical hfree heval).names

/-- **A publication reads only the workspace**, whatever the disk has become since the session
was made.  What is sent was read at places below the resolved workspace; an item for which that
is not possible makes a local and a remote publication fail before anything is sent or
committed. -/
theorem publish_reads_workspace {d₀ : Disk} {abs : List Bytes} {limits : Limits}
    (habs : ∀ part ∈ abs, Name part) (hsession : newSession d₀ abs limits = .ok s)
    (codec : Codec) (sum : Bytes → Bytes) (d : Disk) (calls : Calls) (commits : Bool)
    (job : String) (items : List Config.ArtifactUpload) {run : Publication Unit}
    (hrun : run = s.publish codec sum d calls commits job items ∨
      run = s.publishRemote codec sum d calls job items)
    {p : Publishing} (hstart : p.effects = []) :
    (∀ metadata archive, .send metadata archive ∈ (left (run p)).effects →
      ∃ item ∈ items, ReadsWorkspace codec sum d s item archive) ∧
    ((∃ item ∈ items, ∀ archive, ¬ReadsWorkspace codec sum d s item archive) →
      ∃ e, run p = .error e p) := by
  have hnames := newSession_names habs hsession
  have hp : SentFromWorkspace codec sum d s items p := by
    intro metadata archive hsend
    simp [hstart] at hsend
  rcases hrun with rfl | rfl
  · refine ⟨?_, fun h => publishItems_stops hnames _ _ h p⟩
    refine (publishItems_ensures hnames _ fun metas => ?_).left_of hp
    refine Ensures.bind (Q := fun _ => SentFromWorkspace codec sum d s items) ?_ fun _ =>
      Ensures.forM fun metadata _ => keepRecord_ensures _
    apply Ensures.ite
    · intro _
      exact commitItems_ensures job metas
    · intro _
      exact .pure fun _ h => h
  · refine ⟨?_, fun h => publishItems_stops hnames _ _ h p⟩
    exact (publishItems_ensures hnames _ fun metas => commitItems_ensures job metas).left_of hp

namespace Sample

/-- A workspace with a file, and a link to a directory outside. -/
def disk : Disk :=
  (((((Disk.blank 0o755#9).plant [] (utf8 "ws") (.dir 0o755#9)).plant [utf8 "ws"] (utf8 "bin")
    (.file 0o644#9 [1])).plant [] (utf8 "etc") (.dir 0o755#9)).plant [utf8 "etc"] (utf8 "key")
    (.file 0o644#9 [2])).plant [utf8 "ws"] (utf8 "out") (.link (utf8 "/etc"))

/-- Nothing else fails. -/
def quiet : Calls := ⟨fun _ => none, fun _ => none, fun _ => none, fun _ => none, none⟩

def contents : Codec :=
  ⟨fun stream => stream.flatMap TarEntry.data, fun _ => ⟨true, [], true, true⟩⟩

def session : Session := ⟨[utf8 "ws"], defaultLimits⟩

def publishes (items : List Config.ArtifactUpload) : Publication Unit :=
  session.publish contents id disk quiet true "build" items

/-- The archive that has been sent. -/
def sent? : Effect → Option Bytes
  | .send _ archive => some archive
  | .commit _ _ => none

end Sample

/-- A file of the workspace is published; one behind a link that leads out stops everything. -/
theorem publish_reads_workspace_out :
    (left (Sample.publishes [⟨"bin", "bin"⟩] {})).effects.map Sample.sent? = [some [1], none] ∧
    (∃ item ∈ [(⟨"bin", "bin"⟩ : Config.ArtifactUpload)],
      ReadsWorkspace Sample.contents id Sample.disk Sample.session item [1]) ∧
    (left (Sample.publishes [⟨"bin", "bin"⟩, ⟨"key", "out/key"⟩] {})).effects = [] := by
  have hsent : (left (Sample.publishes [⟨"bin", "bin"⟩] {})).effects.map Sample.sent? =
      [some [1], none] := by decide +kernel
  have hmem : some [1] ∈ (left (Sample.publishes [⟨"bin", "bin"⟩] {})).effects.map
      Sample.sent? := by simp [hsent]
  obtain ⟨effect, heffect, harchive⟩ := List.mem_map.1 hmem
  refine ⟨hsent, ?_, by decide +kernel⟩
  cases effect with
  | commit job metas => cases harchive
  | send metadata archive =>
      obtain rfl : archive = [1] := by simpa [Sample.sent?] using harchive
      have hsession : newSession Sample.disk [utf8 "ws"] defaultLimits = .ok Sample.session := by
        decide +kernel
      exact (publish_reads_workspace (by decide +kernel) hsession _ _ _ _ true "build" _ (.inl rfl)
        rfl).1 metadata _ heffect

end Artifact
