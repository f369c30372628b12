import ForgeCI.ArtifactRows

/-!
# Artifact blobs and their garbage collection

Artifact metadata lives in the database, the bytes in a content-addressed store
on disk, and nothing locks the two together.  A publication makes sure that its
blobs are there (`HasBlob` for each item in `ArtifactCommit`, `Store.Put` for each
item in `Session.Publish`) and then commits the rows.  The server's loop deletes
expired rows and removes blobs in steps of its own: those `ExpireArtifacts` found
without a live row, and then every old file that is not in the set
`LiveArtifactBlobs` returned.  Every step here is one call, and all of them
interleave.

Between the decision to remove a blob and its removal, a publication may find the
blob and commit a row that refers to it.
-/

namespace ArtifactGC

open Postgres Traces

/-- A file under `blobs/sha256`. -/
structure Blob where
  digest : String
  size : Int
  modTime : Time

/-- `artifact.Store`: one file for each digest. -/
structure Store where
  blobs : List Blob
  distinct : (blobs.map Blob.digest).Nodup

def Store.empty : Store := ⟨[], List.nodup_nil⟩

/-- `os.Stat` of the path of a digest. -/
def Store.blob? (t : Store) (digest : String) : Option Blob :=
  Table.row? Blob.digest digest t.blobs

def Store.unlink (t : Store) (digest : String) : Store where
  blobs := t.blobs.filter (·.digest ≠ digest)
  distinct := t.distinct.sublist (List.filter_sublist.map _)

def Store.link (t : Store) (b : Blob) : Store where
  blobs := (t.unlink b.digest).blobs ++ [b]
  distinct := by
    rw [List.map_append, List.map_singleton, ← List.concat_eq_append]
    refine (t.unlink b.digest).distinct.concat ?_
    intro hmem
    obtain ⟨x, hx, hdigest⟩ := List.mem_map.1 hmem
    simp [Store.unlink, hdigest] at hx

/-- `Store.HasBlob`. -/
def Store.hasBlob (t : Store) (digest : String) (size : Int) : Bool :=
  validDigest digest && (t.blob? digest).any (·.size = size)

/-- `Store.Put` of content with the expected digest and size.  A blob that exists
is left alone, with its age. -/
def Store.put (maxArchiveBytes : Int) (digest : String) (size : Int) (now : Time)
    (t : Store) : Option Store :=
  if validDigest digest = false ∨ size < 0 ∨ maxArchiveBytes < size then none
  else match t.blob? digest with
  | none => some (t.link ⟨digest, size, now⟩)
  | some b => if b.size = size then some t else none

/-- `Store.RemoveBlob`. -/
def Store.removeBlob (digest : String) (t : Store) : Store :=
  if validDigest digest then t.unlink digest else t

/-- The files `CleanupOrphans` removes. -/
def Store.orphaned (now grace : Time) (live : List String) (digest : String) (t : Store) : Bool :=
  validDigest digest && digest ∉ live &&
    (t.blob? digest).any fun b => b.modTime + grace ≤ now

/-- A publication on its way: the items whose blob it has made sure of come
first. -/
structure Publication where
  owner : Ownership
  items : List Artifact
  /-- Through `Handlers.ArtifactCommit`, not `Session.Publish`. -/
  remote : Bool
  verified : Nat := 0

def Publication.verifiedItems (p : Publication) : List Artifact :=
  p.items.take p.verified

def Publication.advance (p : Publication) : Publication :=
  { p with verified := p.verified + 1 }

/-- The test `ArtifactCommit` makes of an item. -/
def itemPresent (t : Store) (item : Artifact) : Bool :=
  validDigest item.contentSHA256 && validDigest item.blobSHA256 &&
    item.format = "artifact-tar-gzip-v1" && t.hasBlob item.blobSHA256 item.archiveSizeBytes

/-- Where the loop of the server stands: between ticks, removing the digests
`ExpireArtifacts` returned, or walking over the files. -/
inductive Collector
  | idle
  | removing (now : Time) (digests : List String)
  | sweeping (now : Time) (live visited : List String)
deriving DecidableEq

structure Config where
  settings : Settings
  orphanGrace : Time
  maxArchiveBytes : Int

structure World where
  db : Database
  store : Store
  collector : Collector
  publications : List Publication

def World.start : World := ⟨Database.empty, Store.empty, .idle, []⟩

inductive Action
  /-- A request to the database that has nothing to do with artifacts. -/
  | other (q : Request)
  /-- `ArtifactUpload`. -/
  | upload (digest : String) (size : Int) (now : Time)
  /-- A publication starts. -/
  | publish (owner : Ownership) (items : List Artifact) (remote : Bool)
  /-- It makes sure of its next blob. -/
  | verify (index : Nat) (now : Time)
  | commit (index : Nat) (now : Time)
  /-- It fails or is cancelled. -/
  | abandon (index : Nat)
  /-- The `ExpireArtifacts` transaction. -/
  | expire (now : Time)
  /-- `RemoveBlob` of the next digest. -/
  | remove
  /-- `LiveArtifactBlobs`. -/
  | readLive
  /-- `CleanupOrphans` comes to a file. -/
  | visit (digest : String)
  | endSweep

/-- The requests of publications and of the collector. -/
def concernsArtifacts : Call → Bool
  | .commitArtifacts _ _ | .expireArtifacts => true
  | _ => false

def World.close (w : World) (index : Nat) : World :=
  { w with publications := w.publications.eraseIdx index }

/-- Make sure of the next blob of a publication. -/
def World.verifyNext (c : Config) (w : World) (index : Nat) (now : Time) (p : Publication)
    (item : Artifact) : World :=
  if p.remote then
    if itemPresent w.store item then
      { w with publications := w.publications.set index p.advance }
    else w.close index
  else match w.store.put c.maxArchiveBytes item.blobSHA256 item.archiveSizeBytes now with
  | none => w.close index
  | some store =>
      { w with store := store, publications := w.publications.set index p.advance }

def World.step (c : Config) (w : World) : Action → Option World
  | .other q =>
      if concernsArtifacts q.call then none
      else some { w with db := (w.db.serve c.settings q).1 }
  | .upload digest size now =>
      some { w with store := (w.store.put c.maxArchiveBytes digest size now).getD w.store }
  | .publish owner items remote =>
      some { w with publications := w.publications ++ [⟨owner, items, remote, 0⟩] }
  | .verify index now =>
      match w.publications[index]? with
      | none => none
      | some p =>
          match p.items[p.verified]? with
          | none => none
          | some item => some (w.verifyNext c index now p item)
  | .commit index now =>
      match w.publications[index]? with
      | none => none
      | some p =>
          if p.verified = p.items.length then
            some { w.close index with
              db := (w.db.serve c.settings ⟨now, .commitArtifacts p.owner p.items⟩).1 }
          else none
  | .abandon index => some (w.close index)
  | .expire now =>
      if w.collector = .idle then
        match w.db.serve c.settings ⟨now, .expireArtifacts⟩ with
        | (db, .ok (.removable digests)) =>
            some { w with db := db, collector := .removing now digests }
        | (db, _) => some { w with db := db }
      else none
  | .remove =>
      match w.collector with
      | .removing now (digest :: rest) =>
          some { w with
            store := w.store.removeBlob digest
            collector := .removing now rest }
      | _ => none
  | .readLive =>
      match w.collector with
      | .removing now [] =>
          some { w with collector := .sweeping now (liveArtifactBlobs w.db.toRows) [] }
      | _ => none
  | .visit digest =>
      match w.collector with
      | .sweeping now live visited =>
          if digest ∈ visited then none
          else some { w with
            store := if w.store.orphaned now c.orphanGrace live digest then
              w.store.unlink digest else w.store
            collector := .sweeping now live (digest :: visited) }
      | _ => none
  | .endSweep =>
      match w.collector with
      -- without a live set there is no sweep
      | .removing _ [] | .sweeping _ _ _ => some { w with collector := .idle }
      | _ => none

/-- A run of the server from an empty database and store. -/
abbrev Runs (c : Config) (tr : List (Step World Action)) (w : World) : Prop :=
  Trace (fun w a w' => w.step c a = some w') World.start tr w

/-- **Live artifacts have their bytes.** -/
def World.Kept (w : World) : Prop :=
  ∀ a ∈ w.db.artifacts, a.deletedAt = none → (w.store.blob? a.blobSHA256).isSome = true

/-- The file an action of the collector removes. -/
def World.unlinks (c : Config) (w : World) : Action → Option String
  | .remove =>
      match w.collector with
      | .removing _ (digest :: _) => some digest
      | _ => none
  | .visit digest =>
      match w.collector with
      | .sweeping now live _ =>
          if w.store.orphaned now c.orphanGrace live digest then some digest else none
      | _ => none
  | _ => none

/-- The digests for which an action commits rows. -/
def World.commits (c : Config) (w : World) : Action → List String
  | .commit index now =>
      match w.publications[index]? with
      | none => []
      | some p =>
          match (w.db.serve c.settings ⟨now, .commitArtifacts p.owner p.items⟩).2 with
          | .ok _ => p.items.map Artifact.blobSHA256
          | .error _ => []
  | _ => []

/-- The collector has decided to remove the file of this digest, and has not come to it yet. -/
def World.after (c : Config) (w : World) (digest : String) : Bool :=
  match w.collector with
  | .idle => false
  | .removing _ digests => digest ∈ digests
  | .sweeping now live visited =>
      digest ∉ visited && w.store.orphaned now c.orphanGrace live digest

/-- **The schedule leaves the collector alone**: from its decision to remove a file to the removal
no publication commits a row for this file, and none that is on its way at the removal has made
sure of it. -/
def World.undisturbed (c : Config) (w : World) (a : Action) : Bool :=
  (w.commits c a).all (fun digest => w.after c digest = false) &&
    (w.unlinks c a).all fun digest =>
      w.publications.all fun p => p.verifiedItems.all fun item => item.blobSHA256 ≠ digest

variable {c : Config} {w w' : World} {a : Action} {t t' : Store} {digest d : String}
  {now : Time} {index : Nat} {p : Publication}

theorem Store.blob?_unlink (hd : d ≠ digest) : (t.unlink digest).blob? d = t.blob? d := by
  unfold Store.blob? Table.row? Store.unlink
  rw [List.find?_filter]
  congr 1
  grind

theorem Store.blob?_link {b : Blob} :
    (t.link b).blob? d = if d = b.digest then some b else t.blob? d := by
  have happend : (t.link b).blob? d =
      ((t.unlink b.digest).blob? d).or (if b.digest = d then some b else none) := by
    simp [Store.blob?, Table.row?, Store.link, List.find?_append, List.find?_cons]
    grind
  rw [happend]
  by_cases hd : d = b.digest
  · have hnone : (t.unlink b.digest).blob? b.digest = none := by
      simp [Store.blob?, Table.row?, Store.unlink]
    rw [hd, hnone, if_pos rfl, if_pos rfl, Option.none_or]
  · rw [if_neg hd, if_neg (Ne.symm hd), Store.blob?_unlink hd, Option.or_none]

/-- `Put` leaves the blob it was asked for, and those there were. -/
theorem Store.put_spec {maxArchiveBytes size : Int}
    (h : t.put maxArchiveBytes digest size now = some t') :
    (t'.blob? digest).isSome = true ∧ ∀ d b, t.blob? d = some b → t'.blob? d = some b := by
  unfold Store.put at h
  split_ifs at h
  split at h
  · rename_i hnone
    cases h
    refine ⟨by rw [Store.blob?_link, if_pos rfl]; rfl, fun d b hb => ?_⟩
    rw [Store.blob?_link, if_neg, hb]
    rintro rfl
    rw [hnone] at hb
    cases hb
  · rename_i b hb
    split_ifs at h
    cases h
    exact ⟨by rw [hb]; rfl, fun _ _ hd => hd⟩

theorem itemPresent_blob {item : Artifact} (h : itemPresent t item = true) :
    (t.blob? item.blobSHA256).isSome = true := by
  simp only [itemPresent, Store.hasBlob, Bool.and_eq_true] at h
  obtain ⟨b, hb, -⟩ := Option.any_eq_true _ _ |>.1 h.2.2
  rw [hb]
  rfl

/-- Every live row and every verified item has its blob. -/
structure World.Safe (w : World) : Prop where
  kept : w.Kept
  verified : ∀ p ∈ w.publications, ∀ item ∈ p.verifiedItems,
    (w.store.blob? item.blobSHA256).isSome = true

/-- No blob goes and no row comes. -/
theorem World.Safe.of_grow (h : w.Safe) (hdb : w'.db = w.db)
    (hstore : ∀ d b, w.store.blob? d = some b → w'.store.blob? d = some b)
    (hpublications : ∀ p ∈ w'.publications, p ∈ w.publications ∨
      ∀ item ∈ p.verifiedItems, (w'.store.blob? item.blobSHA256).isSome = true) : w'.Safe := by
  have hsome : ∀ d, (w.store.blob? d).isSome = true → (w'.store.blob? d).isSome = true := by
    intro d hd
    obtain ⟨b, hb⟩ := Option.isSome_iff_exists.1 hd
    rw [hstore d b hb]
    rfl
  refine ⟨fun row hrow hlive => hsome _ (h.kept row (hdb ▸ hrow) hlive), fun p hp item hitem => ?_⟩
  rcases hpublications p hp with hold | hnew
  · exact hsome _ (h.verified p hold item hitem)
  · exact hnew item hitem

/-- Requests other than commits bring no live row. -/
theorem World.Safe.of_served (h : w.Safe) {q : Request} (hq : ∀ owner items,
      q.call ≠ .commitArtifacts owner items) (hserved : Served c.settings w.db q w'.db)
    (hstore : w'.store = w.store) (hpublications : w'.publications = w.publications) :
    w'.Safe where
  kept row hrow hlive := by
    rcases hserved.live_artifact hrow hlive with ⟨old, hold, holdlive, hblob⟩ |
      ⟨owner, items, hcall, -⟩
    · rw [hstore, ← hblob]
      exact h.kept old hold holdlive
    · exact absurd hcall (hq owner items)
  verified p hp := by
    rw [hstore]
    exact h.verified p (hpublications ▸ hp)

/-- Removing a file to which no live row refers, and which nobody has made sure of. -/
theorem World.Safe.of_unlink (h : w.Safe)
    (hrows : ∀ row ∈ w.db.artifacts, row.deletedAt = none → row.blobSHA256 ≠ digest)
    (hpending : ∀ p ∈ w.publications, ∀ item ∈ p.verifiedItems, item.blobSHA256 ≠ digest)
    (hdb : w'.db = w.db)
    (hstore : ∀ d, d ≠ digest → w'.store.blob? d = w.store.blob? d)
    (hpublications : w'.publications = w.publications) : w'.Safe where
  kept row hrow hlive := by
    rw [hdb] at hrow
    rw [hstore _ (hrows row hrow hlive)]
    exact h.kept row hrow hlive
  verified p hp item hitem := by
    rw [hpublications] at hp
    rw [hstore _ (hpending p hp item hitem)]
    exact h.verified p hp item hitem

theorem World.mem_close (h : p ∈ (w.close index).publications) : p ∈ w.publications :=
  List.mem_of_mem_eraseIdx h

/-- The items of a publication that has gone one further. -/
theorem Publication.mem_advance {item x : Artifact}
    (hitem : p.items[p.verified]? = some item) (hx : x ∈ p.advance.verifiedItems) :
    x ∈ p.verifiedItems ∨ x = item := by
  have htake : p.items.take (p.verified + 1) = p.items.take p.verified ++ [item] := by
    rw [List.take_add_one, hitem]
    rfl
  rw [Publication.verifiedItems, show p.advance.items.take p.advance.verified =
    p.items.take (p.verified + 1) from rfl, htake, List.mem_append, List.mem_singleton] at hx
  exact hx

/-- Making sure of one more blob. -/
theorem World.Safe.verifyNext (h : w.Safe) {item : Artifact} (hp : w.publications[index]? = some p)
    (hitem : p.items[p.verified]? = some item) : (w.verifyNext c index now p item).Safe := by
  have hclose : (w.close index).Safe :=
    h.of_grow rfl (fun _ _ hd => hd) fun _ hq => .inl (World.mem_close hq)
  have hadvance : ∀ store : Store, (∀ d b, w.store.blob? d = some b → store.blob? d = some b) →
      (store.blob? item.blobSHA256).isSome = true →
      ({ w with
        store := store
        publications := w.publications.set index p.advance } : World).Safe := by
    intro store hstore hblob
    refine h.of_grow rfl hstore fun q hq => ?_
    rcases List.mem_or_eq_of_mem_set hq with hq | rfl
    · exact .inl hq
    · refine .inr fun x hx => ?_
      rcases Publication.mem_advance hitem hx with hx | rfl
      · obtain ⟨b, hb⟩ := Option.isSome_iff_exists.1 (h.verified p (List.mem_of_getElem? hp) x hx)
        rw [hstore _ b hb]
        rfl
      · exact hblob
  unfold World.verifyNext
  split_ifs with hremote hpresent
  · exact hadvance w.store (fun _ _ hd => hd) (itemPresent_blob hpresent)
  · exact hclose
  · grind [Store.put_spec]

theorem World.verifyNext_frame (c : Config) (w : World) (index : Nat) (now : Time)
    (p : Publication) (item : Artifact) : (w.verifyNext c index now p item).db = w.db ∧
      (w.verifyNext c index now p item).collector = w.collector ∧
      ∀ d b, w.store.blob? d = some b →
        (w.verifyNext c index now p item).store.blob? d = some b := by
  unfold World.verifyNext
  split_ifs
  · exact ⟨rfl, rfl, fun _ _ hd => hd⟩
  · exact ⟨rfl, rfl, fun _ _ hd => hd⟩
  · split
    · exact ⟨rfl, rfl, fun _ _ hd => hd⟩
    · rename_i store hput
      exact ⟨rfl, rfl, (Store.put_spec hput).2⟩

/-- Committing a publication that has made sure of all its blobs. -/
theorem World.Safe.commit (h : w.Safe)
    (hp : w.publications[index]? = some p) (hall : p.verified = p.items.length)
    (hserved : Served c.settings w.db ⟨now, .commitArtifacts p.owner p.items⟩ w'.db)
    (hstore : w'.store = w.store)
    (hpublications : w'.publications = (w.close index).publications) : w'.Safe where
  kept row hrow hlive := by
    rw [hstore]
    rcases hserved.live_artifact hrow hlive with ⟨old, hold, holdlive, hblob⟩ |
      ⟨owner, items, hcall, item, hitem, hblob⟩
    · rw [← hblob]
      exact h.kept old hold holdlive
    · cases hcall
      rw [← hblob]
      refine h.verified p (List.mem_of_getElem? hp) item ?_
      rw [Publication.verifiedItems, hall, List.take_length]
      exact hitem
  verified q hq := by
    rw [hstore]
    exact h.verified q (World.mem_close (hpublications ▸ hq))

/-- The collector is after the file of no live row. -/
def World.Decided (c : Config) (w : World) : Prop :=
  ∀ row ∈ w.db.artifacts, row.deletedAt = none → w.after c row.blobSHA256 = false

/-- The decision does not depend on other files. -/
theorem World.after_eq (hcollector : w'.collector = w.collector)
    (hblob : w'.store.blob? d = w.store.blob? d) : w'.after c d = w.after c d := by
  unfold World.after Store.orphaned
  rw [hcollector, hblob]

/-- No blob of a live row changes and no live row comes. -/
theorem World.Decided.of_rows (h : w.Decided c) (hkept : w.Kept)
    (hrows : ∀ row ∈ w'.db.artifacts, row.deletedAt = none → ∃ old ∈ w.db.artifacts,
      old.deletedAt = none ∧ old.blobSHA256 = row.blobSHA256)
    (hcollector : w'.collector = w.collector)
    (hstore : ∀ d b, w.store.blob? d = some b → w'.store.blob? d = some b) : w'.Decided c := by
  intro row hrow hlive
  obtain ⟨old, hold, holdlive, hblob⟩ := hrows row hrow hlive
  obtain ⟨b, hb⟩ := Option.isSome_iff_exists.1 (hkept old hold holdlive)
  rw [← hblob, World.after_eq hcollector ((hstore _ b hb).trans hb.symm)]
  exact h old hold holdlive

/-- Requests other than commits bring no live row. -/
theorem live_of_served {q : Request} (hq : ∀ owner items, q.call ≠ .commitArtifacts owner items)
    {db db' : Database} (hserved : Served c.settings db q db') :
    ∀ row ∈ db'.artifacts, row.deletedAt = none → ∃ old ∈ db.artifacts,
      old.deletedAt = none ∧ old.blobSHA256 = row.blobSHA256 := by
  intro row hrow hlive
  rcases hserved.live_artifact hrow hlive with hold | ⟨owner, items, hcall, -⟩
  · exact hold
  · exact absurd hcall (hq owner items)

/-- A commit brings live rows for files that the collector is not after. -/
theorem World.Decided.commit (h : w.Decided c) (hp : w.publications[index]? = some p)
    (hfree : ∀ digest ∈ w.commits c (.commit index now), w.after c digest = false)
    (hserved : Served c.settings w.db ⟨now, .commitArtifacts p.owner p.items⟩ w'.db)
    (hcollector : w'.collector = w.collector) (hstore : w'.store = w.store) : w'.Decided c := by
  intro row hrow hlive
  rw [World.after_eq hcollector (by rw [hstore])]
  simp only [World.commits, hp] at hfree
  split at hfree
  · rcases hserved.live_artifact hrow hlive with ⟨old, hold, holdlive, hblob⟩ |
      ⟨owner, items, hcall, item, hitem, hblob⟩
    · rw [← hblob]
      exact h old hold holdlive
    · cases hcall
      rw [← hblob]
      exact hfree _ (List.mem_map_of_mem hitem)
  · -- A commit that is refused changes nothing.
    rename_i e hreply
    rw [hserved.of_error hreply] at hrow
    exact h row hrow hlive

/-- **One step.** -/
theorem World.step_safe (h : w.Safe) (hdecided : w.Decided c)
    (ha : w.undisturbed c a = true) (hstep : w.step c a = some w') : w'.Safe ∧ w'.Decided c := by
  simp only [World.undisturbed, Bool.and_eq_true, List.all_eq_true, decide_eq_true_eq] at ha
  obtain ⟨hcommits, hunlinks⟩ := ha
  have hsame : ∀ {w' : World}, w'.db = w.db → w'.collector = w.collector →
      (∀ d b, w.store.blob? d = some b → w'.store.blob? d = some b) → w'.Decided c := by
    intro w' hdb hcollector hstore
    exact hdecided.of_rows h.kept (fun row hrow hlive => ⟨row, hdb ▸ hrow, hlive, rfl⟩)
      hcollector hstore
  -- A file that the collector removes has no live row.
  have hrows : ∀ digest, w.after c digest = true →
      ∀ row ∈ w.db.artifacts, row.deletedAt = none → row.blobSHA256 ≠ digest := by
    rintro _ hafter row hrow hlive rfl
    rw [hdecided row hrow hlive] at hafter
    cases hafter
  have hpending : ∀ digest, w.unlinks c a = some digest → ∀ p ∈ w.publications,
      ∀ item ∈ p.verifiedItems, item.blobSHA256 ≠ digest := by
    intro digest hdigest
    simpa [hdigest] using hunlinks
  cases a with
  | other q =>
    simp only [World.step] at hstep
    split_ifs at hstep with hq
    cases hstep
    have hcall : ∀ owner items, q.call ≠ .commitArtifacts owner items := by
      intro owner items hcall
      rw [hcall] at hq
      exact hq rfl
    exact ⟨h.of_served (c := c) hcall rfl rfl rfl,
      hdecided.of_rows h.kept (live_of_served hcall rfl) rfl fun _ _ hd => hd⟩
  | upload digest size now =>
    cases hstep
    have hgrow : ∀ d b, w.store.blob? d = some b →
        ((w.store.put c.maxArchiveBytes digest size now).getD w.store).blob? d = some b := by
      cases hput : w.store.put c.maxArchiveBytes digest size now with
      | none => exact fun _ _ hd => hd
      | some store => exact (Store.put_spec hput).2
    exact ⟨h.of_grow rfl hgrow fun p hp => .inl hp, hsame rfl rfl hgrow⟩
  | publish owner items remote =>
    cases hstep
    refine ⟨h.of_grow rfl (fun _ _ hd => hd) fun p hp => ?_, hsame rfl rfl fun _ _ hd => hd⟩
    grind [Publication.verifiedItems]
  | verify index now =>
    simp only [World.step] at hstep
    split at hstep
    · cases hstep
    · rename_i p hp
      split at hstep
      · cases hstep
      · rename_i item hitem
        cases hstep
        obtain ⟨hdb, hcollector, hgrow⟩ := World.verifyNext_frame c w index now p item
        exact ⟨h.verifyNext hp hitem, hsame hdb hcollector hgrow⟩
  | commit index now =>
    simp only [World.step] at hstep
    split at hstep
    · cases hstep
    · rename_i p hp
      split_ifs at hstep with hall
      cases hstep
      exact ⟨h.commit (c := c) hp hall rfl rfl rfl,
        hdecided.commit hp hcommits rfl rfl rfl⟩
  | abandon index =>
    cases hstep
    exact ⟨h.of_grow rfl (fun _ _ hd => hd) fun p hp => .inl (World.mem_close hp),
      hsame rfl rfl fun _ _ hd => hd⟩
  | expire now =>
    simp only [World.step] at hstep
    split_ifs at hstep with hidle
    have hcall : ∀ owner items, Call.expireArtifacts ≠ .commitArtifacts owner items := by
      intro owner items h
      cases h
    split at hstep
    · rename_i db digests heq
      cases hstep
      have hserved : Served c.settings w.db ⟨now, .expireArtifacts⟩ db := by rw [Served, heq]
      refine ⟨h.of_served (c := c) hcall hserved rfl rfl, fun row hrow hlive => ?_⟩
      refine decide_eq_false fun hafter => ?_
      exact absurd hlive (hserved.removable (by rw [heq]) hafter hrow rfl)
    · rename_i db _ _ heq
      cases hstep
      have hserved : Served c.settings w.db ⟨now, .expireArtifacts⟩ db := by rw [Served, heq]
      exact ⟨h.of_served (c := c) hcall hserved rfl rfl,
        hdecided.of_rows h.kept (live_of_served hcall hserved) rfl fun _ _ hd => hd⟩
  | remove =>
    simp only [World.step] at hstep
    split at hstep
    · rename_i now digest rest hcollector
      cases hstep
      have hfree := hrows digest (by simp [World.after, hcollector])
      refine ⟨h.of_unlink hfree (hpending digest (by simp [World.unlinks, hcollector])) rfl
        (fun d hd => ?_) rfl, fun row hrow hlive => ?_⟩
      · unfold Store.removeBlob
        split_ifs
        · exact Store.blob?_unlink hd
        · rfl
      · have hbefore := hdecided row hrow hlive
        simp only [World.after, hcollector, List.mem_cons, decide_eq_false_iff_not, not_or]
          at hbefore ⊢
        exact hbefore.2
    · cases hstep
  | readLive =>
    simp only [World.step] at hstep
    split at hstep
    · cases hstep
      refine ⟨⟨h.kept, h.verified⟩, fun row hrow hlive => ?_⟩
      have hmem : row.blobSHA256 ∈ liveArtifactBlobs w.db.toRows :=
        List.mem_dedup.2 (List.mem_map.2 ⟨row, List.mem_filter.2 ⟨hrow, by simp [hlive]⟩, rfl⟩)
      simp [World.after, Store.orphaned, hmem]
    · cases hstep
  | visit digest =>
    simp only [World.step] at hstep
    split at hstep
    · rename_i now live visited hcollector
      split_ifs at hstep with hvisited horphan
      · cases hstep
        have hfree := hrows digest (by simp [World.after, hcollector, hvisited, horphan])
        refine ⟨h.of_unlink hfree
          (hpending digest (by simp [World.unlinks, hcollector, horphan])) rfl
          (fun d hd => Store.blob?_unlink hd) rfl, fun row hrow hlive => ?_⟩
        have hbefore := hdecided row hrow hlive
        simp only [World.after, hcollector] at hbefore ⊢
        grind [Store.orphaned, Store.blob?_unlink]
      · cases hstep
        refine ⟨⟨h.kept, h.verified⟩, fun row hrow hlive => ?_⟩
        have hbefore := hdecided row hrow hlive
        simp only [World.after, hcollector] at hbefore ⊢
        grind
    · cases hstep
  | endSweep =>
    simp only [World.step] at hstep
    split at hstep
    · cases hstep
      exact ⟨⟨h.kept, h.verified⟩, fun _ _ _ => rfl⟩
    · cases hstep
      exact ⟨⟨h.kept, h.verified⟩, fun _ _ _ => rfl⟩
    · cases hstep

theorem World.safe_start : World.start.Safe :=
  ⟨fun _ hrow => (by cases hrow), fun _ hp => (by cases hp)⟩

/-- **Live artifacts keep their bytes** in every state of every run whose schedule leaves the
collector alone. -/
theorem live_artifacts_kept {tr : List (Step World Action)} (h : Runs c tr w)
    (hquiet : ∀ st ∈ tr, st.before.undisturbed c st.act = true) :
    w.Kept ∧ ∀ st ∈ tr, st.before.Kept ∧ st.after.Kept := by
  obtain ⟨hfinal, hsteps⟩ := h.guarded (fun w => w.Safe ∧ w.Decided c)
    (fun w a => w.undisturbed c a = true) ⟨World.safe_start, fun _ hrow => (by cases hrow)⟩
    (fun _ _ _ hw ha hnext => World.step_safe hw.1 hw.2 ha hnext) hquiet
  exact ⟨hfinal.1.kept, fun st hst => ⟨(hsteps st hst).1.1.kept, (hsteps st hst).2.1.kept⟩⟩

/-! ## Two runs

Two runs of one pipeline produce the same artifact.  The first run ends and its
artifact expires.  `overtaken` publishes the artifact of the second run between
`ExpireArtifacts` and the removal of the blob, `undisturbed` after it. -/

namespace Sample

open Postgres.Sample (settings snapshot solo soloGraph dist runner owner)

def config : Config := ⟨settings, 1000, 100⟩

/-- The owner of the lease of the second run. -/
def second : Ownership := { owner with runID := 2, leaseID := some 101 }

def submit (id : Uuid) : Action :=
  .other ⟨0, .createRun (submission id solo soloGraph 1 (some snapshot))⟩

/-- The first run publishes its artifact and passes; the second is leased a
retention time later. -/
def opening : List Action :=
  [submit 1, submit 2, .other ⟨1, .registerRunner runner⟩, .other ⟨2, .leaseJob 7 100⟩,
    .upload dist.blobSHA256 1 3, .publish owner [dist] true, .verify 0 3, .commit 0 4,
    .other ⟨5, .completeJob owner .passed none⟩, .other ⟨60000006, .leaseJob 7 101⟩]

/-- The second run publishes the same artifact. -/
def republish : List Action :=
  [.upload dist.blobSHA256 1 60000008, .publish second [dist] true,
    .verify 0 60000008, .commit 0 60000009]

def overtaken : List Action := opening ++ .expire 60000007 :: (republish ++ [.remove])

def undisturbed : List Action :=
  opening ++ .expire 60000007 :: .remove :: (republish ++ [.readLive, .visit dist.blobSHA256])

end Sample

/-- **A live row loses its bytes** when its commit overtakes the removal of a blob
that had no live row when `ExpireArtifacts` looked. -/
theorem removed_after_commit : ∃ tr w, Runs Sample.config tr w ∧ ¬ w.Kept := by
  have hrun : ((Sample.overtaken.foldlM (World.step Sample.config) World.start).any fun w =>
      w.db.artifacts.any fun a => a.deletedAt.isNone && (w.store.blob? a.blobSHA256).isNone) =
      true := by decide +kernel
  obtain ⟨w, hw, hlost⟩ := (Option.any_eq_true _ _).1 hrun
  obtain ⟨tr, htr, -⟩ := Trace.of_foldlM hw
  obtain ⟨a, ha, hlost⟩ := List.any_eq_true.1 hlost
  simp only [Bool.and_eq_true, Option.isNone_iff_eq_none] at hlost
  refine ⟨tr, w, htr, fun hkept => ?_⟩
  have hblob := hkept a ha hlost.1
  rw [hlost.2] at hblob
  cases hblob

/-- A collection that nobody overtakes, with a live row at its end. -/
theorem kept_when_undisturbed :
    ∃ tr w, Runs Sample.config tr w ∧ (∃ a ∈ w.db.artifacts, a.deletedAt = none) ∧ w.Kept := by
  have hrun : ((Sample.undisturbed.foldlM (fun (w : World) a =>
      if w.undisturbed Sample.config a then w.step Sample.config a else none)
      World.start).any fun w => w.db.artifacts.any fun a => a.deletedAt.isNone) = true := by
    decide +kernel
  obtain ⟨w, hw, hlive⟩ := (Option.any_eq_true _ _).1 hrun
  obtain ⟨tr, htr, hquiet⟩ := Trace.of_guarded_foldlM hw
  obtain ⟨a, ha, hlive⟩ := List.any_eq_true.1 hlive
  exact ⟨tr, w, htr, ⟨a, ha, by simpa using hlive⟩, (live_artifacts_kept htr hquiet).1⟩

end ArtifactGC
