import ForgeCI.Publication

/-!
# Saving caches

`Session.Save` of package `cache`.  A declared path is tested as a text only, and the directories
in it are then followed through links: unlike a publication, a save can read files outside the
workspace.
-/

namespace BuildCache

open FileTree Archive Artifact

/-- `NewSession`, for the absolute path of a workspace. -/
def newSession (d : Disk) (abs : List Bytes) : Except Failure (List Bytes) :=
  match d.evalSymlinks abs with
  | .error e => .error (.call e)
  | .ok resolved => .ok resolved

def safePath (root : List Bytes) (value : Bytes) : Except Failure (List Bytes) :=
  if value = [] ∨ value = [dot] ∨ Lexical.isAbs slash value = true ∨ 0x5c ∈ value ∨ 0 ∈ value then
    .error (.named "unsafe cache path " value "")
  else if clean value ≠ value ∨ climbs (clean value) = true then
    .error (.named "unsafe cache path " value "")
  else .ok (join root (clean value))

/-- The lines of the output: `SAVE-SKIPPED` with a reason, or `SAVE`. -/
inductive Report
  | skipped (key : String) (reason : Failure)
  | saved (key : String)

/-- An archive that was made. -/
structure Archived where
  item : Config.CacheEntry
  source : List Bytes
  metadata : Metadata
  archive : Bytes

/-- Whether the context has ended before an item, and how the calls for its archive end. -/
structure Outcomes where
  canceled : Nat → Bool
  temp : Nat → Option Failure
  opens : Nat → Option Failure
  upload : Nat → Option Failure
  commit : Nat → Option Failure

structure Saving where
  reports : List Report := []
  archives : List Archived := []

def Saving.report (sv : Saving) (line : Report) : Saving :=
  { sv with reports := sv.reports ++ [line] }

def Saving.keep (sv : Saving) (a : Archived) : Saving :=
  { sv with archives := sv.archives ++ [a] }

section Save

variable (codec : Codec) (sum : Bytes → Bytes) (d : Disk) (outcomes : Outcomes)
  (workspace : List Bytes)

/-- `Capture` and what follows it. -/
def saveSource (i : Nat) (item : Config.CacheEntry) (source : List Bytes) (sv : Saving) : Saving :=
  match outcomes.temp i with
  | some e => sv.report (.skipped item.key e)
  | none =>
      match capture codec sum defaultLimits d source (utf8 item.key) with
      | .error e => sv.report (.skipped item.key e)
      | .ok (metadata, archive) =>
          (sv.keep ⟨item, source, metadata, archive⟩).report <|
            match outcomes.opens i <|> outcomes.upload i <|> outcomes.commit i with
            | some e => .skipped item.key e
            | none => .saved item.key

/-- One round of the loop. -/
def saveItem (i : Nat) (item : Config.CacheEntry) (sv : Saving) : Saving :=
  match safePath workspace (utf8 item.path) with
  | .error e => sv.report (.skipped item.key e)
  | .ok source =>
      match d.lstat source with
      | .error .noEntry => sv.report (.skipped item.key (.text "path missing"))
      | .error e => sv.report (.skipped item.key (.call e))
      | .ok (_, .file _ _) => saveSource codec sum d outcomes i item source sv
      | .ok (_, .dir _) => saveSource codec sum d outcomes i item source sv
      | .ok _ => sv.report (.skipped item.key (.text "unsupported root"))

def saveItems : Nat → List Config.CacheEntry → Saving → Saving
  | _, [], sv => sv
  | i, item :: items, sv =>
      if outcomes.canceled i then sv
      else saveItems (i + 1) items (saveItem codec sum d outcomes workspace i item sv)

/-- `Session.Save`. -/
def save (items : List Config.CacheEntry) : Saving :=
  saveItems codec sum d outcomes workspace 0 items {}

end Save

variable {codec : Codec} {sum : Bytes → Bytes} {d : Disk} {outcomes : Outcomes}
  {workspace source : List Bytes} {item : Config.CacheEntry} {items : List Config.CacheEntry}
  {sv : Saving} {i : Nat}

theorem newSession_names {d₀ : Disk} {abs : List Bytes} (habs : ∀ part ∈ abs, Name part)
    (h : newSession d₀ abs = .ok workspace) : ∀ part ∈ workspace, Name part := by
  unfold newSession at h
  cases heval : d₀.evalSymlinks abs with
  | error e => simp [heval] at h
  | ok resolved =>
    simp only [heval] at h
    cases h
    have hfree : ∀ part ∈ abs, slash ∉ part := fun part hpart => (habs part hpart).slash_free
    exact (Disk.evalSymlinks_physical hfree heval).names

/-- **The accepted paths** are names below the workspace. -/
theorem safePath_ok (hnames : ∀ part ∈ workspace, Name part) {value : Bytes}
    (h : safePath workspace value = .ok source) :
    source = join workspace value ∧ ∃ init last, source = workspace ++ init ++ [last] ∧
      Name last := by
  unfold safePath at h
  split_ifs at h with hbad hclean
  simp only [not_or, Decidable.not_not, Bool.not_eq_true] at hbad hclean
  obtain ⟨-, hdot, hrel, -, -⟩ := hbad
  obtain ⟨hclean, hclimbs⟩ := hclean
  rw [hclean] at h hclimbs
  obtain ⟨hup, hups⟩ := not_climbs_iff.1 hclimbs
  have hplain : Lexical.clean slash dot value = value := hclean
  obtain ⟨names, hne, hall, rfl⟩ :=
    (Lexical.plain_iff slash_ne_dot hrel).1 ⟨hplain, hdot, hup, hups⟩
  have hjoin : source = join workspace (path names) := (Except.ok.inj h).symm
  refine ⟨hjoin, ?_⟩
  rw [join_path hnames ⟨hne, hall⟩] at hjoin
  obtain ⟨init, last, rfl⟩ := (List.eq_nil_or_concat' names).resolve_left hne
  exact ⟨init, last, by simp [hjoin], hall last (by simp)⟩

/-- How an archive came about. -/
def Made (codec : Codec) (sum : Bytes → Bytes) (d : Disk) (workspace : List Bytes)
    (items : List Config.CacheEntry) (a : Archived) : Prop :=
  a.item ∈ items ∧ safePath workspace (utf8 a.item.path) = .ok a.source ∧
    capture codec sum defaultLimits d a.source (utf8 a.item.key) = .ok (a.metadata, a.archive)

theorem mem_saveSource {a : Archived}
    (h : a ∈ (saveSource codec sum d outcomes i item source sv).archives) :
    a ∈ sv.archives ∨ a.item = item ∧ a.source = source ∧
      capture codec sum defaultLimits d source (utf8 item.key) = .ok (a.metadata, a.archive) := by
  unfold saveSource at h
  split at h
  · exact .inl h
  · split at h
    · exact .inl h
    · rename_i metadata archive hcapture
      rcases List.mem_append.1 h with hold | hnew
      · exact .inl hold
      · grind

theorem mem_saveItem {a : Archived}
    (h : a ∈ (saveItem codec sum d outcomes workspace i item sv).archives) :
    a ∈ sv.archives ∨ Made codec sum d workspace [item] a := by
  have hmade : ∀ source, safePath workspace (utf8 item.path) = .ok source →
      a ∈ (saveSource codec sum d outcomes i item source sv).archives →
      a ∈ sv.archives ∨ Made codec sum d workspace [item] a := by
    intro source hsource h
    rcases mem_saveSource h with hold | ⟨rfl, rfl, hcapture⟩
    · exact .inl hold
    · exact .inr ⟨by simp, hsource, hcapture⟩
  unfold saveItem at h
  split at h
  · exact .inl h
  · rename_i source hsource
    split at h
    · exact .inl h
    · exact .inl h
    · exact hmade source hsource h
    · exact hmade source hsource h
    · exact .inl h

theorem mem_saveItems {a : Archived}
    (h : a ∈ (saveItems codec sum d outcomes workspace i items sv).archives) :
    a ∈ sv.archives ∨ Made codec sum d workspace items a := by
  induction items generalizing i sv with
  | nil => exact .inl h
  | cons item items ih =>
    rw [saveItems] at h
    split_ifs at h
    · exact .inl h
    · rcases ih h with hold | ⟨hitem, hmade⟩
      · rcases mem_saveItem hold with hold | ⟨hitem, hmade⟩
        · exact .inl hold
        · grind [Made]
      · exact .inr ⟨List.mem_cons_of_mem _ hitem, hmade⟩

theorem mem_save {a : Archived} (h : a ∈ (save codec sum d outcomes workspace items).archives) :
    Made codec sum d workspace items a := by
  rcases mem_saveItems h with h | h
  · cases h
  · exact h

theorem capture_holds {limits : Limits} {key : Bytes} {metadata : Metadata} {archive : Bytes}
    (h : capture codec sum limits d source key = .ok (metadata, archive)) :
    (∃ p top, d.lstat source = .ok (p, top)) ∧
      ∃ entries, Holds codec sum limits d source archive entries := by
  unfold capture at h
  cases hcapture : Artifact.capture codec sum limits d source key with
  | error e => simp [hcapture] at h
  | ok captured =>
    simp only [hcapture] at h
    cases h
    exact capture_ok hcapture

/-- The files at the place a path names, its directory followed through links, all lie below the
workspace. -/
def StaysInside (d : Disk) (workspace : List Bytes) (path : List Bytes) : Prop :=
  ∀ parent, d.Leads path.dropLast parent → ∀ rel mode content,
    d.node (parent ++ [base path] ++ rel) = some (.file mode content) →
      Beneath workspace (parent ++ [base path] ++ rel)

/-- **What an archive has read.**  An archive of a save holds files of the workspace only if, and
only if, the place its path names has no file outside; it has none when the directory of the path
leads into the workspace. -/
theorem saved_archive_reads {d₀ : Disk} {abs : List Bytes} (habs : ∀ part ∈ abs, Name part)
    (hsession : newSession d₀ abs = .ok workspace) (codec : Codec) (sum : Bytes → Bytes) (d : Disk)
    (outcomes : Outcomes) (items : List Config.CacheEntry) {a : Archived}
    (ha : a ∈ (save codec sum d outcomes workspace items).archives) :
    a.item ∈ items ∧ ∃ entries, Holds codec sum defaultLimits d a.source a.archive entries ∧
      (ReadsBeneath d workspace entries ↔
        StaysInside d workspace (join workspace (utf8 a.item.path))) ∧
      ((∃ parent, d.Leads (join workspace (utf8 a.item.path)).dropLast parent ∧
        workspace <+: parent) → ReadsBeneath d workspace entries) := by
  have hnames := newSession_names habs hsession
  obtain ⟨hitem, hpath, hcapture⟩ := mem_save ha
  obtain ⟨⟨p, top, htop⟩, entries, hholds⟩ := capture_holds hcapture
  obtain ⟨hjoin, init, last, hsource, hname⟩ := safePath_ok hnames hpath
  rw [← hjoin]
  rw [hsource] at htop hholds ⊢
  obtain ⟨parent, hlead, rfl, -, -⟩ := Disk.lstat_append_ok hname htop
  have hreads := hholds.readsBeneath_iff htop workspace
  have hbase : base (workspace ++ init ++ [last]) = last := by simp [base]
  have hinside : ReadsBeneath d workspace entries ↔
      StaysInside d workspace (workspace ++ init ++ [last]) := by
    rw [hreads, StaysInside, hbase, List.dropLast_concat]
    constructor
    · intro h parent' hlead'
      obtain rfl := hlead.unique hlead'
      exact h
    · intro h
      exact h parent hlead
  refine ⟨hitem, entries, hholds, hinside, ?_⟩
  rw [List.dropLast_concat]
  rintro ⟨parent', hlead', hpre⟩
  obtain rfl := hlead.unique hlead'
  exact hreads.2 fun rel mode content _ => beneath_of_within hpre

namespace Sample

/-- A job that saves a file through a directory of its workspace. -/
def saving : Config.Pipeline where
  version := 1
  jobs := [("build",
    { steps := ["make"], cache := { save := [⟨"bin", "bin"⟩, ⟨"key", "out/key"⟩] } })]
  jobs_nodup := by decide

/-- Nothing else fails. -/
def quiet : Outcomes :=
  ⟨fun _ => false, fun _ => none, fun _ => none, fun _ => none, fun _ => none⟩

def saved (items : List Config.CacheEntry) : List Archived :=
  (save Artifact.Sample.contents id Artifact.Sample.disk quiet [utf8 "ws"] items).archives

end Sample

/-- A file of the workspace is saved, and it was read there. -/
theorem saved_archive_reads_bin : ∃ a ∈ Sample.saved [⟨"bin", "bin"⟩], a.archive = [1] ∧
    ∃ entries, Holds Artifact.Sample.contents id defaultLimits Artifact.Sample.disk a.source
      a.archive entries ∧ ReadsBeneath Artifact.Sample.disk [utf8 "ws"] entries := by
  have hsaved : (Sample.saved [⟨"bin", "bin"⟩]).map (fun a => (a.item, a.archive)) =
      [(⟨"bin", "bin"⟩, [1])] := by decide +kernel
  obtain ⟨a, ha, heq⟩ : ∃ a ∈ Sample.saved [⟨"bin", "bin"⟩],
      (a.item, a.archive) = (⟨"bin", "bin"⟩, [1]) := by
    apply List.mem_map.1
    rw [hsaved]
    exact List.mem_singleton_self _
  obtain ⟨hitem, harchive⟩ := Prod.mk.inj heq
  have hsession : newSession Artifact.Sample.disk [utf8 "ws"] = .ok [utf8 "ws"] := by
    decide +kernel
  obtain ⟨-, entries, hholds, -, hinside⟩ :=
    saved_archive_reads (by decide +kernel) hsession _ _ _ _ _ ha
  refine ⟨a, ha, harchive, entries, hholds, hinside ⟨[utf8 "ws"], ?_, List.prefix_refl _⟩⟩
  rw [hitem]
  unfold Disk.Leads
  decide +kernel

/-- **A save can read outside the workspace**: behind a link in a directory of an accepted path. -/
theorem saved_from_outside : ¬∀ (d₀ d : Disk) (abs workspace : List Bytes) (codec : Codec)
    (sum : Bytes → Bytes) (outcomes : Outcomes) (cfg : Config.Pipeline) (name : String)
    (job : Config.Job), Config.validate cfg = .ok () → cfg.job? name = some job →
    (∀ part ∈ abs, Name part) → newSession d₀ abs = .ok workspace →
    ∀ a ∈ (save codec sum d outcomes workspace job.cache.save).archives, ∀ entries,
      Holds codec sum defaultLimits d a.source a.archive entries →
        ReadsBeneath d workspace entries := by
  intro h
  have hsaved : (Sample.saved [⟨"bin", "bin"⟩, ⟨"key", "out/key"⟩]).map Archived.source =
      [[utf8 "ws", utf8 "bin"], [utf8 "ws", utf8 "out", utf8 "key"]] := by decide +kernel
  obtain ⟨a, ha, hsource⟩ : ∃ a ∈ Sample.saved [⟨"bin", "bin"⟩, ⟨"key", "out/key"⟩],
      a.source = [utf8 "ws", utf8 "out", utf8 "key"] := by
    apply List.mem_map.1
    rw [hsaved]
    exact List.mem_cons_of_mem _ (List.mem_singleton_self _)
  have htop : Artifact.Sample.disk.lstat a.source =
      .ok ([utf8 "etc", utf8 "key"], .file 0o644#9 [2]) := by
    rw [hsource]
    decide +kernel
  obtain ⟨-, entries, hholds⟩ := capture_holds (mem_save ha).2.2
  have hreads := h Artifact.Sample.disk Artifact.Sample.disk [utf8 "ws"] [utf8 "ws"]
    Artifact.Sample.contents id Sample.quiet Sample.saving "build" _ (by decide +kernel)
    rfl (by decide +kernel) (by decide +kernel) a ha entries hholds
  obtain ⟨name, more, heq⟩ :=
    (hholds.readsBeneath_iff htop _).1 hreads [] 0o644#9 [2] (by decide +kernel)
  have hhead : utf8 "etc" = utf8 "ws" := (List.cons.inj heq).1
  revert hhead
  decide +kernel

end BuildCache
