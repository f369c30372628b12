import ForgeCI.Deliveries
import ForgeCI.RowLocks

/-!
# Webhooks of one pull request at the same time

`CreateSCMDelivery` as PostgreSQL executes it under `READ COMMITTED`.  A statement sees
the rows committed before it and the writes of its own transaction; an `UPDATE` then locks
the rows it has seen one by one, waits for the transactions that have written them, and
tests a row again once it is locked.  No statement locks the pull request, so the
supersession of one transaction does not see a delivery that another has inserted and
not yet committed.
-/

namespace Postgres

/-- `PENDING`, `PROCESSING`, or `FAILED` with a next attempt. -/
def Delivery.live (d : Delivery) : Bool :=
  d.status = .pending || d.status = .processing || (d.status = .failed && d.nextAttemptAt.isSome)

/-- Deliveries of one pull request. -/
def Delivery.SamePullRequest (d d' : Delivery) : Prop :=
  d.eventType = "pull_request" ∧ d'.eventType = "pull_request" ∧
    d.repositoryID = d'.repositoryID ∧ d.pullRequestNumber.isSome = true ∧
    d.pullRequestNumber = d'.pullRequestNumber

theorem Delivery.SamePullRequest.symm {d d' : Delivery} (h : d.SamePullRequest d') :
    d'.SamePullRequest d := by
  obtain ⟨hevent, hevent', hrepository, hsome, hnumber⟩ := h
  exact ⟨hevent', hevent, hrepository.symm, hnumber ▸ hsome, hnumber.symm⟩

/-- The live deliveries of a pull request carry one commit. -/
def Rows.OneRevision (t : Rows) : Prop :=
  ∀ d ∈ t.deliveries, ∀ d' ∈ t.deliveries, d.live = true → d'.live = true →
    d.SamePullRequest d' → d.commitSHA = d'.commitSHA

namespace WebhookRace

open RowLocks Traces

inductive Row
  | delivery (id : Uuid)
  | identity (provider deliveryID : String)
  | run (id : Uuid)
deriving DecidableEq

/-- The statement a transaction executes next. -/
inductive Phase
  /-- `INSERT … ON CONFLICT (provider, delivery_id) DO NOTHING`. -/
  | insert
  /-- The `UPDATE` of the deliveries, on its snapshot. -/
  | supersede
  /-- The deliveries it has seen and not yet locked. -/
  | ignoring (left : List Uuid)
  /-- The `UPDATE` of the runs, on its snapshot. -/
  | cancel
  /-- The runs it has seen and not yet locked. -/
  | canceling (left : List Uuid)
  | commit
  | done
deriving DecidableEq

/-- A call of `CreateSCMDelivery`: the locks it holds, and the deliveries and runs it has
written. -/
structure Creation where
  input : Delivery
  now : Time
  phase : Phase := .insert
  locks : List Row := []
  ignored : List Uuid := []
  canceled : List Uuid := []

def Creation.holds (c : Creation) (row : Row) : Bool :=
  row ∈ c.locks

def Creation.close (c : Creation) : Creation :=
  { c with phase := .done, locks := [], ignored := [], canceled := [] }

/-- The rows after the commit. -/
def Creation.committed (c : Creation) (t : Rows) : Rows :=
  { t with
    deliveries := Table.updateWhere (·.id ∈ c.ignored) (Delivery.ignore c.now) t.deliveries ++
      [c.input.inserted]
    runs := Table.updateWhere (·.id ∈ c.canceled) (Run.supersede c.now) t.runs }

/-- The next statement of a transaction, or row of an `UPDATE`: the rows then committed
and the transaction, or nothing when it waits for a lock.  A delivery that is recorded
already ends the transaction without effect. -/
def Creation.next (free : Row → Bool) (t : Rows) (c : Creation) : Option (Rows × Creation) :=
  match c.phase with
  | .insert =>
      if free (.identity c.input.provider c.input.deliveryID) = false ∨
          free (.delivery c.input.id) = false then none
      else if t.deliveries.any (fun d => d.id = c.input.id ||
          (d.provider = c.input.provider && d.deliveryID = c.input.deliveryID)) then
        some (t, c.close)
      else some (t, { c with
        phase := if c.input.supersedes then .supersede else .commit
        locks := [.identity c.input.provider c.input.deliveryID, .delivery c.input.id] })
  | .supersede =>
      some (t, { c with
        phase := .ignoring ((t.deliveries.filter c.input.overtakes).map Delivery.id) })
  | .ignoring [] => some (t, { c with phase := .cancel })
  | .ignoring (id :: left) =>
      if free (.delivery id) = false then none
      else if (Table.row? Delivery.id id t.deliveries).any c.input.overtakes then
        some (t, { c with
          phase := .ignoring left, locks := .delivery id :: c.locks, ignored := id :: c.ignored })
      else some (t, { c with phase := .ignoring left })
  | .cancel =>
      some (t, { c with
        phase := .canceling ((t.runs.filter (t.superseded c.input)).map Run.id) })
  | .canceling [] => some (t, { c with phase := .commit })
  | .canceling (id :: left) =>
      if free (.run id) = false then none
      else if (Table.row? Run.id id t.runs).any (t.superseded c.input) then
        some (t, { c with
          phase := .canceling left, locks := .run id :: c.locks, canceled := id :: c.canceled })
      else some (t, { c with phase := .canceling left })
  | .commit => some (c.committed t, c.close)
  | .done => none

/-- What a worker does to a delivery. -/
inductive Work
  | claim (token : Uuid) (worker : String) (lease : Time)
  | renew (token : Uuid) (lease : Time)
  | complete (token : Uuid) (status : DeliveryStatus)
  | fail (token : Uuid) (retryAt : Option Time) (message : String)

/-- The row a worker leaves, if it may write it. -/
def Work.apply (now : Time) (d : Delivery) : Work → Option Delivery
  | .claim token worker lease =>
      if d.claimable now then some (d.claimed now token worker lease) else none
  | .renew token lease =>
      if d.claimedWith token now then some (d.renewClaim (now + lease)) else none
  | .complete token status =>
      if d.claimedWith token now ∧ (status = .processed ∨ status = .ignored) then
        some (d.complete status now)
      else none
  | .fail token retryAt message =>
      if d.claimedWith token now then some (d.fail retryAt message) else none

abbrev State := Schedule Rows Creation

inductive Action
  /-- The next statement of a transaction, or row of an `UPDATE`. -/
  | advance (i : Nat)
  /-- A transaction fails: a deadlock, a lost connection. -/
  | abort (i : Nat)
  /-- A worker writes a delivery that is not locked. -/
  | work (now : Time) (id : Uuid) (w : Work)

def step (st : State) : Action → Option State
  | .advance i => st.step Creation.holds Creation.next i
  | .abort i => st.txs[i]?.map fun c => { st with txs := st.txs.set i c.close }
  | .work now id w =>
      if st.txs.any (·.holds (.delivery id)) then none
      else
        (Table.row? Delivery.id id st.rows.deliveries).bind fun d =>
          (w.apply now d).map fun d' =>
            { st with rows := { st.rows with
                deliveries := Table.replace Delivery.id d' st.rows.deliveries } }

/-- A run from committed rows with calls that have not begun. -/
abbrev Reaches (t : Rows) (calls : List Creation) (tr : List (Step State Action)) (st : State) :
    Prop :=
  Trace (fun st act st' => step st act = some st') ⟨t, calls⟩ tr st

/-- What a webhook passes to `CreateSCMDelivery`. -/
structure Accepted (input : Delivery) : Prop where
  status : input.status = .pending ∨ input.status = .ignored
  commit : input.commit ≠ ""

variable {t t' : Rows} {c c' : Creation} {calls : List Creation} {free : Row → Bool}
variable {st st' : State} {act : Action} {tr : List (Step State Action)} {d d' : Delivery}
  {now : Time} {w : Work} {input : Delivery} {i : Nat}

/-- The row is inserted and neither committed nor rolled back. -/
def Creation.opened (c : Creation) : Bool :=
  match c.phase with
  | .insert | .done => false
  | _ => true

/-- The supersession by a `PENDING` delivery has taken its snapshot. -/
def Creation.scanned (c : Creation) : Bool :=
  c.input.supersedes && c.input.status = .pending &&
    match c.phase with
    | .insert | .supersede | .done => false
    | _ => true

/-- The deliveries that are ignored already or still to be looked at. -/
def Creation.doomed (c : Creation) : List Uuid :=
  match c.phase with
  | .ignoring left => left ++ c.ignored
  | _ => c.ignored

/-- What the next statement does. -/
inductive Next (free : Row → Bool) (t : Rows) (c : Creation) : Rows → Creation → Prop
  | close : Next free t c t c.close
  | insert (hphase : c.phase = .insert) (hfree : free (.delivery c.input.id) = true)
      (hidentity : free (.identity c.input.provider c.input.deliveryID) = true)
      (hfresh : ∀ d ∈ t.deliveries, d.id ≠ c.input.id) :
      Next free t c t { c with
        phase := if c.input.supersedes then .supersede else .commit
        locks := [.identity c.input.provider c.input.deliveryID, .delivery c.input.id] }
  | scan (hphase : c.phase = .supersede) :
      Next free t c t { c with
        phase := .ignoring ((t.deliveries.filter c.input.overtakes).map Delivery.id) }
  | ignore {id : Uuid} {left : List Uuid} (hphase : c.phase = .ignoring (id :: left))
      (hfree : free (.delivery id) = true) :
      Next free t c t { c with
        phase := .ignoring left, locks := .delivery id :: c.locks, ignored := id :: c.ignored }
  | skip {id : Uuid} {left : List Uuid} (hphase : c.phase = .ignoring (id :: left))
      (hpassed : ∀ d, Table.row? Delivery.id id t.deliveries = some d →
        c.input.overtakes d = false) :
      Next free t c t { c with phase := .ignoring left }
  /-- The statements that come after the deliveries are written. -/
  | later {c' : Creation} (hopened : c.opened = true) (hopened' : c'.opened = true)
      (hinput : c'.input = c.input) (hscanned : c'.scanned = true → c.scanned = true)
      (hdoomed : c'.doomed = c.doomed) (hlocks : ∀ row, c.holds row = true → c'.holds row = true)
      (hfree : ∀ row, c'.holds row = true → c.holds row = true ∨ free row = true) :
      Next free t c t c'
  | commit (hphase : c.phase = .commit) : Next free t c (c.committed t) c.close

/-- A statement that takes no lock. -/
theorem Next.rephase {phase : Phase} (hopened : c.opened = true)
    (hopened' : ({ c with phase := phase } : Creation).opened = true)
    (hscanned : ({ c with phase := phase } : Creation).scanned = true → c.scanned = true)
    (hdoomed : ({ c with phase := phase } : Creation).doomed = c.doomed) :
    Next free t c t { c with phase := phase } :=
  .later hopened hopened' rfl hscanned hdoomed (fun _ hrow => hrow) (fun _ hrow => .inl hrow)

theorem Creation.next_cases (h : c.next free t = some (t', c')) : Next free t c t' c' := by
  unfold next at h
  split at h
  · rename_i hphase
    split at h
    · cases h
    rename_i hfree
    rw [not_or, Bool.not_eq_false, Bool.not_eq_false] at hfree
    split at h
    · cases h
      exact .close
    · rename_i hnew
      cases h
      refine .insert hphase hfree.2 hfree.1 fun d hd heq => hnew ?_
      exact List.any_eq_true.2 ⟨d, hd, by simp [heq]⟩
  · rename_i hphase
    cases h
    exact .scan hphase
  · rename_i hphase
    cases h
    exact .rephase (by simp [opened, hphase]) rfl (by simp [scanned, hphase])
      (by simp [doomed, hphase])
  · rename_i id left hphase
    split at h
    · cases h
    rename_i hfree
    rw [Bool.not_eq_false] at hfree
    split at h
    · cases h
      exact .ignore hphase hfree
    · rename_i hpassed
      cases h
      refine .skip hphase fun d hd => ?_
      simpa [hd] using hpassed
  · rename_i hphase
    cases h
    exact .rephase (by simp [opened, hphase]) rfl (by simp [scanned, hphase])
      (by simp [doomed, hphase])
  · rename_i hphase
    cases h
    exact .rephase (by simp [opened, hphase]) rfl (by simp [scanned, hphase])
      (by simp [doomed, hphase])
  · rename_i id left hphase
    split at h
    · cases h
    rename_i hfree
    rw [Bool.not_eq_false] at hfree
    split at h
    · cases h
      refine .later (by simp [opened, hphase]) rfl rfl (by simp [scanned, hphase])
        (by simp [doomed, hphase]) ?_ ?_
      · intro row hrow
        simp_all [holds]
      · intro row hrow
        simp only [holds, List.mem_cons, decide_eq_true_eq] at hrow ⊢
        grind
    · cases h
      exact .rephase (by simp [opened, hphase]) rfl (by simp [scanned, hphase])
        (by simp [doomed, hphase])
  · rename_i hphase
    cases h
    exact .commit hphase
  · cases h

/-- A delivery that a worker may write is live. -/
theorem Work.apply_live (h : w.apply now d = some d') : d.live = true := by
  cases w <;> simp only [apply, Option.ite_none_right_eq_some, Delivery.claimable_iff,
    Delivery.claimedWith_iff] at h
  case claim => grind [Delivery.live]
  case complete => simp [Delivery.live, h.1.1.1]
  all_goals simp [Delivery.live, h.1.1]

theorem Work.apply_static (h : w.apply now d = some d') : d.SameStatic d' := by
  cases w <;> simp only [apply, Option.ite_none_right_eq_some, Option.some.injEq] at h <;>
    obtain ⟨-, rfl⟩ := h <;> exact .refl d

theorem Delivery.overtakes_of_live (hlive : d.live = true)
    (hstatic : d.SameStatic d') (h : input.overtakes d' = true) : input.overtakes d = true := by
  obtain ⟨hid, -, -, hrepository, hevent, -, hcommit, hnumber, -⟩ := hstatic
  grind [Delivery.overtakes_iff, Delivery.live]

/-- When a supersession takes its snapshot, no other transaction for another commit of the
pull request is between its own snapshot and its commit. -/
def Uncrossed (st : State) : Action → Prop
  | .advance i => ∀ c ∈ st.txs[i]?, c.phase = .supersede → ∀ c' ∈ st.txs.eraseIdx i,
      c'.scanned = true → c.input.SamePullRequest c'.input → c.input.commit = c'.input.commit
  | _ => True

instance (d d' : Delivery) : Decidable (d.SamePullRequest d') :=
  inferInstanceAs (Decidable (_ ∧ _))

instance (st : State) : DecidablePred (Uncrossed st)
  | .advance _ => inferInstanceAs (Decidable (∀ c ∈ _, _))
  | .abort _ | .work _ _ _ => .isTrue trivial

/-- The invariant of uncrossed transactions. -/
structure Ordered (st : State) : Prop where
  accepted : ∀ (i : Nat) (c : Creation), st.txs[i]? = some c → Accepted c.input
  keys : (st.rows.deliveries.map Delivery.id).Nodup
  exclusive : Exclusive Creation.holds st.txs
  /-- The row a transaction has inserted is its own. -/
  fresh : ∀ (i : Nat) (c : Creation), st.txs[i]? = some c → c.opened = true →
    c.holds (.delivery c.input.id) = true ∧ ∀ d ∈ st.rows.deliveries, d.id ≠ c.input.id
  /-- A supersession has seen whatever it has to ignore. -/
  covers : ∀ (i : Nat) (c : Creation), st.txs[i]? = some c → c.scanned = true →
    ∀ d ∈ st.rows.deliveries, c.input.overtakes d = true →
      d.commitSHA ≠ some c.input.commit → d.id ∈ c.doomed
  agree : ∀ (i j : Nat) (c c' : Creation), st.txs[i]? = some c → st.txs[j]? = some c' →
    c.scanned = true → c'.scanned = true → c.input.SamePullRequest c'.input →
      c.input.commit = c'.input.commit
  one : st.rows.OneRevision

/-- A statement that writes no committed row. -/
theorem Ordered.set (h : Ordered st) (hi : st.txs[i]? = some c)
    (hinput : c'.input = c.input) (hlocks : ∀ row, c'.holds row = true →
      c.holds row = true ∨ heldByOther Creation.holds st.txs i row = false)
    (hfresh : c'.opened = true → c'.holds (.delivery c'.input.id) = true ∧
      ∀ d ∈ st.rows.deliveries, d.id ≠ c'.input.id)
    (hcovers : c'.scanned = true → ∀ d ∈ st.rows.deliveries, c'.input.overtakes d = true →
      d.commitSHA ≠ some c'.input.commit → d.id ∈ c'.doomed)
    (hagree : c'.scanned = true → c.scanned = true ∨
      ∀ (j : Nat) (u : Creation), j ≠ i → st.txs[j]? = some u → u.scanned = true →
        c.input.SamePullRequest u.input → c.input.commit = u.input.commit) :
    Ordered ⟨st.rows, st.txs.set i c'⟩ where
  accepted := by grind [h.accepted]
  keys := h.keys
  exclusive := h.exclusive.set hi hlocks
  fresh := by grind [h.fresh]
  covers := by grind [h.covers]
  agree := by
    have hnew : ∀ j u, j ≠ i → st.txs[j]? = some u → c'.scanned = true → u.scanned = true →
        c.input.SamePullRequest u.input → c.input.commit = u.input.commit := by grind [h.agree]
    intro j k u v hj hk hu hv hsame
    rcases getElem?_set_cases hj with ⟨-, rfl⟩ | ⟨hne, hj'⟩ <;>
      rcases getElem?_set_cases hk with ⟨-, rfl⟩ | ⟨hne', hk'⟩
    · rfl
    · grind
    · rw [hinput] at hsame ⊢
      exact (hnew j u hne hj' hv hu hsame.symm).symm
    · exact h.agree j k u v hj' hk' hu hv hsame
  one := h.one

/-- The rows a commit leaves. -/
theorem Creation.mem_committed (h : d ∈ (c.committed t).deliveries) :
    d = c.input.inserted ∨ (d ∈ t.deliveries ∧ d.id ∉ c.ignored) ∨ d.status = .ignored := by
  grind [committed, Table.mem_updateWhere, Delivery.ignore]

theorem Accepted.inserted_commitSHA (h : Accepted input) :
    input.inserted.commitSHA = some input.commit := by
  simp [Delivery.inserted, h.commit]

/-- A live delivery of a pull request has superseded the others. -/
theorem Accepted.supersedes (h : Accepted input)
    (hlive : input.inserted.live = true) (hevent : input.eventType = "pull_request")
    (hnumber : input.pullRequestNumber.isSome = true) :
    input.supersedes = true ∧ input.status = .pending := by
  grind [h.status, Delivery.live, Delivery.inserted, Delivery.supersedes]

theorem ignored_not_live (h : d.status = .ignored) : d.live = false := by
  simp [Delivery.live, h]

/-- **The commit of an uncrossed transaction leaves one live revision.** -/
theorem Ordered.one_committed (h : Ordered st) (hi : st.txs[i]? = some c)
    (hphase : c.phase = .commit) : (c.committed st.rows).OneRevision := by
  have hfresh := (h.fresh i c hi (by simp [Creation.opened, hphase])).2
  -- against the new row
  have hnew : ∀ d ∈ (c.committed st.rows).deliveries, d.live = true →
      c.input.inserted.live = true → c.input.inserted.SamePullRequest d →
      d.commitSHA = c.input.inserted.commitSHA := by
    intro d hd hlive hinput hsame
    obtain ⟨hevent, hevent', hrepository, hsome, hnumber⟩ := hsame
    obtain ⟨hsupersedes, hpending⟩ := (h.accepted i c hi).supersedes hinput hevent hsome
    have hscanned : c.scanned = true := by simp [Creation.scanned, hphase, hsupersedes, hpending]
    rcases Creation.mem_committed hd with rfl | ⟨hold, hkept⟩ | hignored
    · rfl
    · rw [(h.accepted i c hi).inserted_commitSHA]
      by_contra hne
      have hovertakes : c.input.overtakes d = true := by
        rw [Delivery.overtakes_iff]
        refine ⟨hrepository.symm, hevent', hnumber.symm, hfresh d hold, ?_, .inr hne⟩
        grind [Delivery.live]
      have hdoomed := h.covers i c hi hscanned d hold hovertakes hne
      grind [Creation.doomed]
    · rw [ignored_not_live hignored] at hlive
      cases hlive
  intro d hd d' hd' hlive hlive' hsame
  rcases Creation.mem_committed hd with rfl | ⟨hold, -⟩ | hignored
  · exact (hnew d' hd' hlive' hlive hsame).symm
  · rcases Creation.mem_committed hd' with rfl | ⟨hold', -⟩ | hignored
    · exact hnew d hd hlive hlive' hsame.symm
    · exact h.one d hold d' hold' hlive hlive' hsame
    · rw [ignored_not_live hignored] at hlive'
      cases hlive'
  · rw [ignored_not_live hignored] at hlive
    cases hlive

theorem Creation.close_scanned (c : Creation) : c.close.scanned = false := by
  simp [scanned, close]

theorem Creation.close_holds (c : Creation) (row : Row) : c.close.holds row = false := by
  simp [close, holds]

/-- A transaction that ends without effect. -/
theorem Ordered.close (h : Ordered st) (hi : st.txs[i]? = some c) :
    Ordered ⟨st.rows, st.txs.set i c.close⟩ := by
  have hinput : c.close.input = c.input := rfl
  apply h.set hi hinput
  · intro row hrow
    simp [c.close_holds row] at hrow
  · intro hopened
    cases hopened
  · intro hscanned
    simp [c.close_scanned] at hscanned
  · intro hscanned
    simp [c.close_scanned] at hscanned

theorem Creation.scanned_opened (h : c.scanned = true) : c.opened = true := by
  unfold scanned at h
  unfold opened
  cases hphase : c.phase <;> simp_all

theorem Creation.scanned_pull (h : c.scanned = true) :
    c.input.eventType = "pull_request" ∧ c.input.pullRequestNumber.isSome = true := by
  simp only [scanned, Delivery.supersedes, Bool.and_eq_true, decide_eq_true_eq] at h
  exact ⟨h.1.1.1.1, h.1.1.1.2⟩

/-- A transaction that commits is for the commit of every supersession under way. -/
theorem Ordered.new_agrees (h : Ordered st) {i j : Nat} {u : Creation} (hi : st.txs[i]? = some c)
    (hphase : c.phase = .commit) (hj : st.txs[j]? = some u) (hu : u.scanned = true)
    (hovertakes : u.input.overtakes c.input.inserted = true) :
    c.input.commit = u.input.commit := by
  have haccepted := h.accepted i c hi
  obtain ⟨huevent, husome⟩ := Creation.scanned_pull hu
  obtain ⟨hrepository, hevent, hnumber, -, hactive, -⟩ := Delivery.overtakes_iff.1 hovertakes
  have hsome : c.input.pullRequestNumber.isSome = true := by
    rw [show c.input.pullRequestNumber = u.input.pullRequestNumber from hnumber]
    exact husome
  have hlive : c.input.inserted.live = true := by
    grind [haccepted.status, Delivery.live, Delivery.inserted]
  obtain ⟨hsupersedes, hpending⟩ := haccepted.supersedes hlive hevent hsome
  exact h.agree i j c u hi hj (by simp [Creation.scanned, hphase, hsupersedes, hpending]) hu
    ⟨hevent, huevent, hrepository, hsome, hnumber⟩

theorem Ordered.commit (h : Ordered st) (hi : st.txs[i]? = some c)
    (hphase : c.phase = .commit) : Ordered ⟨c.committed st.rows, st.txs.set i c.close⟩ := by
  have hopened : c.opened = true := by simp [Creation.opened, hphase]
  obtain ⟨hlock, hfresh⟩ := h.fresh i c hi hopened
  have hclosed := h.close hi
  -- another open transaction has another row
  have hother : ∀ (j : Nat) (u : Creation), (st.txs.set i c.close)[j]? = some u → u.opened = true →
      st.txs[j]? = some u ∧ c.input.id ≠ u.input.id := by
    intro j u hj hu
    rcases getElem?_set_cases hj with ⟨-, rfl⟩ | ⟨hne, hj⟩
    · cases hu
    · refine ⟨hj, fun heq => hne ?_⟩
      have hu := (h.fresh j u hj hu).1
      rw [← heq] at hu
      exact h.exclusive j i u c _ hj hi hu hlock
  refine ⟨hclosed.accepted, ?_, hclosed.exclusive, ?_, ?_, hclosed.agree, h.one_committed hi hphase⟩
  · have hids := Table.map_updateWhere (l := st.rows.deliveries) (p := (·.id ∈ c.ignored))
      (f := Delivery.ignore c.now) (g := Delivery.id) fun _ _ => rfl
    simp only [Creation.committed, List.map_append, hids, List.nodup_append]
    refine ⟨h.keys, by simp, ?_⟩
    intro a ha b hb
    obtain ⟨d, hd, rfl⟩ := List.mem_map.1 ha
    obtain rfl : b = c.input.id := by simpa [Delivery.inserted] using hb
    exact hfresh d hd
  · intro j u hj hu
    obtain ⟨hj', hne⟩ := hother j u hj hu
    refine ⟨(h.fresh j u hj' hu).1, ?_⟩
    intro d hd
    simp only [Creation.committed, List.mem_append, List.mem_singleton,
      Table.mem_updateWhere] at hd
    rcases hd with ⟨d₀, hd₀, rfl⟩ | rfl
    · have hid : ∀ b : Bool, (if b = true then d₀.ignore c.now else d₀).id = d₀.id := by
        intro b
        cases b <;> rfl
      rw [hid]
      exact (h.fresh j u hj' hu).2 d₀ hd₀
    · exact hne
  · intro j u hj hu d hd hovertakes hcommit
    obtain ⟨hj', hne⟩ := hother j u hj (Creation.scanned_opened hu)
    rcases Creation.mem_committed hd with rfl | ⟨hold, -⟩ | hignored
    · refine absurd ?_ hcommit
      rw [(h.accepted i c hi).inserted_commitSHA, h.new_agrees hi hphase hj' hu hovertakes]
    · exact h.covers j u hj' hu d hold hovertakes hcommit
    · grind [Delivery.overtakes_iff]

theorem Creation.scanned_ignoring {left left' : List Uuid} (h : c.phase = .ignoring left)
    (hscanned : c'.scanned = true) (h' : c'.phase = .ignoring left')
    (hinput : c'.input = c.input) : c.scanned = true := by
  simpa [scanned, h, h', hinput] using hscanned

theorem Ordered.next (h : Ordered st) (hguard : Uncrossed st (.advance i))
    (hi : st.txs[i]? = some c)
    (hnext : Next (fun row => !heldByOther Creation.holds st.txs i row) st.rows c t' c') :
    Ordered ⟨t', st.txs.set i c'⟩ := by
  have hown := h.fresh i c hi
  cases hnext with
  | close => exact h.close hi
  | insert hphase hfree hidentity hfresh =>
    refine h.set hi rfl ?_ ?_ ?_ ?_
    · grind [Creation.holds]
    · exact fun _ => ⟨by simp [Creation.holds], hfresh⟩
    · grind [Creation.scanned]
    · grind [Creation.scanned]
  | scan hphase =>
    refine h.set hi rfl (fun _ hrow => .inl hrow) ?_ ?_ ?_
    · exact fun _ => hown (by simp [Creation.opened, hphase])
    · intro _ d hd hovertakes _
      exact List.mem_append_left _ (List.mem_map_of_mem (List.mem_filter.2 ⟨hd, hovertakes⟩))
    · intro _
      refine .inr fun j u hne hj hu hsame => hguard c hi hphase u ?_ hu hsame
      exact List.mem_eraseIdx_iff_getElem?.2 ⟨j, hne, hj⟩
  | @ignore id left hphase hfree =>
    refine h.set hi rfl ?_ ?_ ?_ ?_
    · grind [Creation.holds]
    · grind [Creation.opened, Creation.holds]
    · intro hnew d hd hovertakes hcommit
      have hmem := h.covers i c hi (Creation.scanned_ignoring hphase hnew rfl rfl) d hd
        hovertakes hcommit
      grind [Creation.doomed]
    · exact fun hnew => .inl (Creation.scanned_ignoring hphase hnew rfl rfl)
  | @skip id left hphase hpassed =>
    refine h.set hi rfl (fun _ hrow => .inl hrow) ?_ ?_ ?_
    · exact fun _ => hown (by simp [Creation.opened, hphase])
    · intro hnew d hd hovertakes hcommit
      have hmem := h.covers i c hi (Creation.scanned_ignoring hphase hnew rfl rfl) d hd
        hovertakes hcommit
      have hne : d.id ≠ id := by grind [h.keys, Table.row?_eq_some_iff]
      grind [Creation.doomed]
    · exact fun hnew => .inl (Creation.scanned_ignoring hphase hnew rfl rfl)
  | later hopened hopened' hinput hscanned hdoomed hlocks hfree =>
    refine h.set hi hinput (fun row hrow => ?_) (fun _ => ?_) (fun hnew => ?_)
      fun hnew => .inl (hscanned hnew)
    · simpa using hfree row hrow
    · grind
    · grind [h.covers]
  | commit hphase => exact h.commit hi hphase

theorem Ordered.work (h : Ordered st)
    (hd : d ∈ st.rows.deliveries) (happly : w.apply now d = some d') :
    Ordered { st with rows := { st.rows with
      deliveries := Table.replace Delivery.id d' st.rows.deliveries } } := by
  have hstatic := Work.apply_static happly
  have hlive := Work.apply_live happly
  have hrows : List.Forall₂ (fun a b : Delivery => b = a ∨ (a.live = true ∧ a.SameStatic b))
      st.rows.deliveries (Table.replace Delivery.id d' st.rows.deliveries) :=
    Table.forall₂_replace h.keys hd hstatic.1 (.inr ⟨hlive, hstatic⟩) fun _ _ => .inl rfl
  have hids : (Table.replace Delivery.id d' st.rows.deliveries).map Delivery.id =
      st.rows.deliveries.map Delivery.id := by
    refine Table.map_eq_of_forall₂ hrows fun a b hab => ?_
    rcases hab with rfl | ⟨-, hab⟩
    · rfl
    · exact hab.1
  refine ⟨h.accepted, by rw [hids]; exact h.keys, h.exclusive, ?_, ?_, h.agree, ?_⟩
  · intro i c hi hopened
    refine ⟨(h.fresh i c hi hopened).1, fun b hb => ?_⟩
    obtain ⟨a, ha, rfl | ⟨-, hab⟩⟩ := Table.exists_old hrows hb
    · exact (h.fresh i c hi hopened).2 _ ha
    · rw [hab.1]
      exact (h.fresh i c hi hopened).2 a ha
  · intro i c hi hscanned b hb hovertakes hcommit
    obtain ⟨a, ha, rfl | ⟨halive, hab⟩⟩ := Table.exists_old hrows hb
    · exact h.covers i c hi hscanned _ ha hovertakes hcommit
    · rw [hab.1]
      exact h.covers i c hi hscanned a ha (Delivery.overtakes_of_live halive hab hovertakes)
        (by rwa [hab.2.2.2.2.2.2.1] at hcommit)
  · have hback : ∀ b ∈ Table.replace Delivery.id d' st.rows.deliveries, b.live = true →
        ∃ a ∈ st.rows.deliveries, a.live = true ∧ a.SameStatic b := by
      intro b hb hblive
      obtain ⟨a, ha, rfl | ⟨halive, hab⟩⟩ := Table.exists_old hrows hb
      · exact ⟨_, ha, hblive, .refl _⟩
      · exact ⟨a, ha, halive, hab⟩
    intro b hb b' hb' hblive hblive' hsame
    obtain ⟨a, ha, halive, hab⟩ := hback b hb hblive
    obtain ⟨a', ha', halive', hab'⟩ := hback b' hb' hblive'
    obtain ⟨-, -, -, hrepository, hevent, -, hcommit, hnumber, -⟩ := hab
    obtain ⟨-, -, -, hrepository', hevent', -, hcommit', hnumber', -⟩ := hab'
    rw [Delivery.SamePullRequest, hevent, hevent', hrepository, hrepository', hnumber,
      hnumber'] at hsame
    rw [hcommit, hcommit']
    exact h.one a ha a' ha' halive halive' hsame

theorem step_ordered (h : Ordered st) (hguard : Uncrossed st act) (hstep : step st act = some st') :
    Ordered st' := by
  cases act with
  | advance i =>
    obtain ⟨c, c', hi, htxs, hnext⟩ := Schedule.step_cases hstep
    have hordered := h.next hguard hi (Creation.next_cases hnext)
    rw [← htxs] at hordered
    exact hordered
  | abort i =>
    obtain ⟨c, hi, rfl⟩ := Option.map_eq_some_iff.1 hstep
    exact h.close hi
  | work now id w =>
    simp only [step] at hstep
    split at hstep
    · cases hstep
    obtain ⟨d, hd, hstep⟩ := Option.bind_eq_some_iff.1 hstep
    obtain ⟨d', happly, rfl⟩ := Option.map_eq_some_iff.1 hstep
    exact h.work (Table.row?_some hd).1 happly

/-- **One live revision of a pull request.**  While no two transactions for different
commits of a pull request are between their supersession and their commit, the live
deliveries of every pull request carry one commit, in every state. -/
theorem one_live_revision (db : Database) (hone : db.OneRevision)
    (hcalls : ∀ c ∈ calls, Accepted c.input ∧ c.phase = .insert ∧ c.locks = [])
    (h : Reaches db.toRows calls tr st) (hguard : ∀ u ∈ tr, Uncrossed u.before u.act) :
    st.rows.OneRevision ∧ ∀ u ∈ tr, u.after.rows.OneRevision := by
  have hinit : Ordered ⟨db.toRows, calls⟩ := by
    have hidle : ∀ (i : Nat) (c : Creation), calls[i]? = some c →
        Accepted c.input ∧ c.phase = .insert ∧ c.locks = [] :=
      fun i c hi => hcalls c (List.mem_of_getElem? hi)
    refine ⟨fun i c hi => (hidle i c hi).1, db.valid.deliveries_key, ?_, ?_, ?_, ?_, hone⟩
    · intro i j c c' row hi _ hc
      simp [Creation.holds, (hidle i c hi).2.2] at hc
    · intro i c hi hopened
      simp [Creation.opened, (hidle i c hi).2.1] at hopened
    · intro i c hi hscanned
      simp [Creation.scanned, (hidle i c hi).2.1] at hscanned
    · intro i j c c' hi _ hscanned
      simp [Creation.scanned, (hidle i c hi).2.1] at hscanned
  obtain ⟨hlast, hall⟩ := h.guarded Ordered Uncrossed hinit
    (fun _ _ _ hordered hguard hstep => step_ordered hordered hguard hstep) hguard
  exact ⟨hlast.one, fun u hu => (hall u hu).2.one⟩

namespace Sample

/-- A revision of pull request 7 of repository 20. -/
def revision (id : Uuid) (deliveryID sha : String) : Creation where
  input := {
    id := id
    provider := "github"
    deliveryID := deliveryID
    repositoryID := 20
    eventType := "pull_request"
    action := "synchronize"
    commitSHA := some sha
    pullRequestNumber := some 7
    payloadSHA256 := deliveryID
    status := .pending
    receivedAt := 0 }
  now := 0

def revisions : List Creation :=
  [revision 30 "first" "aaaa", revision 31 "second" "bbbb"]

/-- Both transactions insert, both supersede, and both commit. -/
def crossing : List Action :=
  [.advance 0, .advance 1, .advance 0, .advance 1, .advance 0, .advance 0, .advance 0, .advance 0,
    .advance 1, .advance 1, .advance 1, .advance 1]

/-- The second transaction supersedes after the first has committed. -/
def uncrossed : List Action :=
  [.advance 0, .advance 1, .advance 0, .advance 0, .advance 0, .advance 0, .advance 0, .advance 1,
    .advance 1, .advance 1, .advance 1, .advance 1, .advance 1]

end Sample

theorem Sample.revisions_accepted : ∀ c ∈ Sample.revisions,
    Accepted c.input ∧ c.input.status = .pending ∧ c.phase = .insert ∧ c.locks = [] := by
  intro c hc
  simp only [Sample.revisions, List.mem_cons, List.not_mem_nil, or_false] at hc
  rcases hc with rfl | rfl
  · exact ⟨⟨.inl rfl, by decide⟩, rfl, rfl, rfl⟩
  · exact ⟨⟨.inl rfl, by decide⟩, rfl, rfl, rfl⟩

theorem Sample.empty_oneRevision : Database.empty.OneRevision := by
  intro d hd
  cases hd

/-- The later of two revisions is the live one. -/
theorem later_revision_lives : ∃ tr st,
    Reaches Database.empty.toRows Sample.revisions tr st ∧
      (∀ u ∈ tr, Uncrossed u.before u.act) ∧ st.rows.OneRevision ∧ (∀ c ∈ st.txs, c.phase = .done) ∧
      st.rows.deliveries.map (fun d => (d.id, d.status)) = [(30, .ignored), (31, .pending)] := by
  have hrun : (Sample.uncrossed.foldlM
      (fun st act => if decide (Uncrossed st act) then step st act else none)
      ⟨Database.empty.toRows, Sample.revisions⟩).map (fun st => (decide (∀ c ∈ st.txs,
        c.phase = .done), st.rows.deliveries.map fun d => (d.id, d.status))) =
      some (true, [(30, .ignored), (31, .pending)]) := by
    decide +kernel
  obtain ⟨st, hst, hstate⟩ := Option.map_eq_some_iff.1 hrun
  obtain ⟨hdone, hrows⟩ := Prod.mk.inj hstate
  obtain ⟨tr, htr, hguard⟩ := Trace.of_guarded_foldlM hst
  have huncrossed : ∀ u ∈ tr, Uncrossed u.before u.act :=
    fun u hu => of_decide_eq_true (hguard u hu)
  have hcalls : ∀ c ∈ Sample.revisions, Accepted c.input ∧ c.phase = .insert ∧ c.locks = [] :=
    fun c hc => ⟨(Sample.revisions_accepted c hc).1, (Sample.revisions_accepted c hc).2.2⟩
  exact ⟨tr, st, htr, huncrossed, (one_live_revision Database.empty Sample.empty_oneRevision hcalls
    htr huncrossed).1, of_decide_eq_true hdone, hrows⟩

/-- **Two revisions of a pull request that cross are both live.** -/
theorem crossing_revisions_live : ¬ ∀ (db : Database) (calls : List Creation)
    (tr : List (Step State Action)) (st : State), db.OneRevision →
    (∀ c ∈ calls, Accepted c.input ∧ c.input.status = .pending ∧ c.phase = .insert ∧
      c.locks = []) →
    (∀ c ∈ calls, ∀ c' ∈ calls, c.input.SamePullRequest c'.input) →
    Reaches db.toRows calls tr st → (∀ c ∈ st.txs, c.phase = .done) → st.rows.OneRevision := by
  intro hall
  have hrun : (Sample.crossing.foldlM step ⟨Database.empty.toRows, Sample.revisions⟩).map
      (fun st => (decide (∀ c ∈ st.txs, c.phase = .done), st.rows.deliveries)) =
      some (true, Sample.revisions.map Creation.input) := by
    decide +kernel
  obtain ⟨tr, st, htr, -, hstate⟩ := Trace.of_foldlM_map hrun
  obtain ⟨hdone, hrows⟩ := Prod.mk.inj hstate
  have hone := hall Database.empty Sample.revisions tr st Sample.empty_oneRevision
    Sample.revisions_accepted (by decide) htr (of_decide_eq_true hdone)
  have hfirst := hone (Sample.revision 30 "first" "aaaa").input
    (by rw [hrows]; exact List.mem_cons_self) (Sample.revision 31 "second" "bbbb").input
    (by rw [hrows]; exact List.mem_cons_of_mem _ List.mem_cons_self) rfl rfl (by decide)
  exact absurd hfirst (by decide)

end WebhookRace

end Postgres
