import ForgeCI.ReadCommitted

/-!
# Completions racing with expiry sweeps

`CompleteJob` locks the run row before it counts the unfinished jobs;
`ExpireJobLeases` does not.  So two transactions that end the last jobs of a run
may each count while the job of the other is still committed as unfinished, and
then neither finalizes the run.
-/

namespace Postgres

/-- Every job has ended and the run has not. -/
def Run.Stuck (r : Run) : Prop :=
  (∀ j ∈ r.jobs, j.status.unfinished = false) ∧ r.status.terminal = false

instance (r : Run) : Decidable r.Stuck :=
  inferInstanceAs (Decidable (_ ∧ _))

/-- What the race needs of the run it starts from. -/
structure Run.Steady (r : Run) : Prop where
  names : (r.jobs.map Job.name).Nodup
  idle : r.status.terminal = true → ∀ j ∈ r.jobs, j.status ≠ .running
  all_ended : (∀ j ∈ r.jobs, j.status.unfinished = false) → r.status.terminal = true

/-- Every run of a reachable database is steady. -/
theorem Run.Scheduled.steady {r : Run} (h : r.Scheduled) : r.Steady := by
  obtain ⟨cfg, hcfg⟩ := h.built
  exact ⟨hcfg.names_nodup, h.ended_idle, h.all_ended⟩

namespace ReadCommitted

open RowLocks Traces

variable {s : Settings} {r r' : Run} {tx tx' : Tx} {j : Job} {st st' : State} {i : Nat}

/-- The transaction has taken its count. -/
def Tx.counted (tx : Tx) : Bool :=
  match tx.phase with
  | .flags | .finalize _ | .commit => true
  | _ => false

/-- The transaction has counted no unfinished job and ends the run. -/
def Tx.finalizing (tx : Tx) : Bool :=
  match tx.phase with
  | .flags | .finalize _ => true
  | .commit => tx.status.isSome
  | _ => false

/-- The jobs ended by a transaction that has taken its count. -/
def Tx.settles (tx : Tx) (name : String) : Bool :=
  tx.counted && name ∈ tx.ended

/-- The transaction is about to count, it sees an unfinished job, and every job
it sees unfinished is ended by another open transaction that has already
counted. -/
def State.overlooks (st : State) (i : Nat) : Bool :=
  match st.txs[i]? with
  | none => false
  | some tx =>
      let view := tx.view st.rows
      tx.phase = .count && view.jobs.any (·.status.unfinished) &&
        view.jobs.all fun j =>
          !j.status.unfinished || heldByOther Tx.settles st.txs i j.name

theorem State.overlooks_iff (hi : st.txs[i]? = some tx) :
    st.overlooks i = true ↔ tx.phase = .count ∧
      (∃ j ∈ (tx.view st.rows).jobs, j.status.unfinished = true) ∧
      ∀ j ∈ (tx.view st.rows).jobs, j.status.unfinished = true →
        ∃ k ty, k ≠ i ∧ st.txs[k]? = some ty ∧ ty.counted = true ∧ j.name ∈ ty.ended := by
  simp only [overlooks, hi, Bool.and_eq_true, decide_eq_true_eq, List.any_eq_true,
    List.all_eq_true, Bool.or_eq_true, Bool.not_eq_true', heldByOther_iff, Tx.settles, and_assoc]
  grind

/-- The run is finalized, about to be, or has an unfinished job that no
transaction with a finished count has ended. -/
def State.Witnessed (st : State) : Prop :=
  st.rows.status.terminal = true ∨
    (∃ (k : Nat) (ty : Tx), st.txs[k]? = some ty ∧ ty.finalizing = true) ∨
    ∃ j ∈ st.rows.jobs, j.status.unfinished = true ∧
      ∀ (k : Nat) (ty : Tx), st.txs[k]? = some ty → ty.counted = true → j.name ∉ ty.ended

/-- Before its count a transaction moves towards the count. -/
theorem Tx.next_uncounted {free : Row → Bool} (huncounted : tx.counted = false)
    (hphase : tx.phase ≠ .count) (hnext : tx.next s free r = some (r', tx')) :
    tx'.counted = false := by
  cases hp : tx.phase
  case count => exact absurd hp hphase
  case flags | finalize | commit => simp [counted, hp] at huncounted
  case expire rows =>
    cases rows <;> simp only [next, hp] at hnext <;> split_ifs at hnext <;>
      obtain ⟨-, rfl⟩ := Prod.mk.inj (Option.some.inj hnext) <;> rfl
  case blocking rows affected =>
    cases rows <;> simp only [next, hp] at hnext
    · cases hnext
      cases affected <;> rfl
    · split_ifs at hnext
      cases hnext
      rfl
  case update c =>
    simp only [next, hp] at hnext
    split at hnext <;> obtain ⟨-, rfl⟩ := Prod.mk.inj (Option.some.inj hnext)
    · simp only [counted]
      split_ifs <;> rfl
    · rfl
  case done => simp [next, hp] at hnext
  all_goals
    simp only [next, hp] at hnext
    try split_ifs at hnext
    all_goals
      cases hnext
      rfl

/-- A step of a transaction that neither counts nor has counted. -/
theorem State.Witnessed.advance (h : st.Witnessed) (hi : st.txs[i]? = some tx)
    (hrun : st'.rows = st.rows) (htxs : st'.txs = st.txs.set i tx')
    (hbefore : tx.finalizing = false) (hafter : tx'.counted = false) : st'.Witnessed := by
  rcases h with hterm | ⟨k, ty, hk, hfinal⟩ | ⟨j, hj, hunfinished, hmissed⟩
  · exact .inl (hrun ▸ hterm)
  · have hne : k ≠ i := by grind
    exact .inr (.inl ⟨k, ty, by rw [htxs, getElem?_set_old hne]; exact hk, hfinal⟩)
  · refine .inr (.inr ⟨j, hrun ▸ hj, hunfinished, fun k ty hk hcounted => ?_⟩)
    grind

/-- A count that does not overlook the last jobs keeps the run witnessed. -/
theorem State.witnessed_count (hi : st.txs[i]? = some tx)
    (hphase : tx.phase = .count) (hrun : st'.rows = st.rows)
    (htxs : st'.txs = st.txs.set i { tx with
      phase := if (tx.view st.rows).jobs.any (·.status.unfinished) then .commit else .flags })
    (hc : tx.Consistent st.rows) (hseen : st.overlooks i = false) : st'.Witnessed := by
  have hnew : ∀ {k : Nat} {ty : Tx}, st'.txs[k]? = some ty →
      (k = i ∧ ty.ended = tx.ended) ∨ (k ≠ i ∧ st.txs[k]? = some ty) := by
    intro k ty hk
    rw [htxs] at hk
    rcases getElem?_set_cases hk with ⟨rfl, rfl⟩ | hold
    · exact .inl ⟨rfl, rfl⟩
    · exact .inr hold
  cases hany : (tx.view st.rows).jobs.any (·.status.unfinished) with
  | false =>
    refine .inr (.inl ⟨i, { tx with phase := .flags }, ?_, rfl⟩)
    rw [htxs, getElem?_set_new hi, hany]
    rfl
  | true =>
    -- Some job is left that no finished count has ended, and this one has not either.
    obtain ⟨u, hu, hunfinished, hmissed⟩ : ∃ u ∈ (tx.view st.rows).jobs,
        u.status.unfinished = true ∧ ∀ (k : Nat) (ty : Tx), k ≠ i → st.txs[k]? = some ty →
          ty.counted = true → u.name ∉ ty.ended := by
      by_contra hno
      push Not at hno
      rw [← Bool.not_eq_true, State.overlooks_iff hi] at hseen
      grind
    rcases Tx.view_cases hu with ⟨hold, hnot⟩ | hwritten
    · refine .inr (.inr ⟨u, hrun ▸ hold, hunfinished, fun k ty hk hcounted => ?_⟩)
      grind
    · rw [hc.owns.finished u hwritten] at hunfinished
      cases hunfinished

/-- A commit keeps the run witnessed: it ends the run, or the job that is left
was not its own. -/
theorem State.Witnessed.commit (h : st.Witnessed) (hc : State.Consistent st)
    (hi : st.txs[i]? = some tx) (hphase : tx.phase = .commit)
    (hrun : st'.rows = tx.committed s st.rows) (htxs : st'.txs = st.txs.set i tx.close) :
    st'.Witnessed := by
  have hcounted : tx.counted = true := by simp [Tx.counted, hphase]
  cases hstatus : tx.status with
  | some status =>
    have hprogress := (hc.fits i tx hi).progress
    simp only [Tx.Progress, hphase] at hprogress
    refine .inl ?_
    rw [hrun, Tx.committed, hstatus]
    exact (hprogress status hstatus).2
  | none =>
    have hview : st'.rows = tx.view st.rows := by rw [hrun, Tx.committed, hstatus]
    rcases h with hterm | ⟨k, ty, hk, hfinal⟩ | ⟨j, hj, hunfinished, hmissed⟩
    · exact .inl (by rw [hview]; exact hterm)
    · have hne : k ≠ i := by grind [Tx.finalizing]
      exact .inr (.inl ⟨k, ty, by rw [htxs, getElem?_set_old hne]; exact hk, hfinal⟩)
    · refine .inr (.inr ⟨j, ?_, hunfinished, fun k ty hk hk' => ?_⟩)
      · grind [Tx.mem_view]
      · grind [Tx.counted, Tx.close]

/-- **A step whose count overlooks nothing keeps the run witnessed.** -/
theorem State.Witnessed.step (h : st.Witnessed) (hc : State.Consistent st)
    (hstep : st.step s i = some st') (hseen : st.overlooks i = false) : st'.Witnessed := by
  obtain ⟨tx, tx', hi, htxs, hnext⟩ := Schedule.step_cases hstep
  have hkeep : tx.phase ≠ .commit → st'.rows = st.rows := fun hopen =>
    (Tx.next_open (hc.fits i tx hi) hc.good.names hopen hnext).run
  cases hphase : tx.phase
  case commit =>
    obtain ⟨hrun, rfl⟩ : tx.committed s st.rows = st'.rows ∧ tx.close = tx' := by
      simpa [Tx.next, hphase] using hnext
    exact h.commit hc hi hphase hrun.symm htxs
  case count =>
    obtain ⟨-, rfl⟩ := Prod.mk.inj (Option.some.inj (by simpa only [Tx.next, hphase] using hnext))
    exact State.witnessed_count hi hphase (hkeep (by simp [hphase])) htxs (hc.fits i tx hi) hseen
  case flags =>
    obtain ⟨-, rfl⟩ := Prod.mk.inj (Option.some.inj (by simpa only [Tx.next, hphase] using hnext))
    exact .inr (.inl ⟨i, _, by rw [htxs, getElem?_set_new hi], rfl⟩)
  case finalize status =>
    simp only [Tx.next, hphase] at hnext
    split at hnext
    case isFalse => cases hnext
    obtain ⟨-, rfl⟩ := Prod.mk.inj (Option.some.inj hnext)
    by_cases hterm : st.rows.status.terminal = true
    · exact .inl (by rw [hkeep (by simp [hphase])]; exact hterm)
    · refine .inr (.inl ⟨i, _, by rw [htxs, getElem?_set_new hi], ?_⟩)
      simp [Tx.finalizing, hterm]
  all_goals
    refine h.advance hi (hkeep (by simp [hphase])) htxs (by simp [Tx.finalizing, hphase]) ?_
    exact Tx.next_uncounted (by simp [Tx.counted, hphase]) (by simp [hphase]) hnext

/-- The run has not ended, nobody is about to end it, and its unfinished jobs
have all been ended by transactions that only have to commit. -/
structure State.Doomed (st : State) : Prop where
  active : st.rows.status.terminal = false
  ended : ∀ j ∈ st.rows.jobs, j.status.unfinished = true →
    ∃ (k : Nat) (ty : Tx), st.txs[k]? = some ty ∧ ty.phase = .commit ∧ j.name ∈ ty.ended
  quiet : ∀ (k : Nat) (ty : Tx), st.txs[k]? = some ty →
    (ty.phase = .commit ∧ ty.status = none) ∨ (ty.counted = false ∧ ty.writes = [])

/-- Whoever finalizes has ended, or seen committed, what another has ended. -/
theorem State.not_finalizing (hc : State.Consistent st) (hi : st.txs[i]? = some tx)
    (htook : tx.Took st.rows) {k : Nat} {ty : Tx} (hk : st.txs[k]? = some ty) (hne : k ≠ i) :
    ty.finalizing = false := by
  obtain ⟨w, hw, j, hj, hname, hrunning⟩ := htook
  rw [← Bool.not_eq_true]
  intro hfinal
  have hcloses : ty.Closes st.rows := by
    have hprogress := (hc.fits k ty hk).progress
    unfold Tx.finalizing at hfinal
    unfold Tx.Progress at hprogress
    cases hphase : ty.phase <;> simp only [hphase] at hfinal hprogress
    case flags => exact hprogress
    case finalize => exact hprogress.1
    case commit =>
      obtain ⟨status, hstatus⟩ := Option.isSome_iff_exists.1 hfinal
      exact (hprogress status hstatus).1
    all_goals cases hfinal
  have hended : j.name ∈ ty.ended := hcloses j hj (by rw [hrunning]; rfl)
  exact hne (State.apart hc hk hi ((hc.fits k ty hk).ended_locked hended)
    (hname ▸ (hc.fits i tx hi).owns.locked w hw))

/-- A count that overlooks the last jobs dooms the run. -/
theorem State.doomed_of_overlooks (hc : State.Consistent st) (hseen : st.overlooks i = true)
    (hstep : st.step s i = some st') : st'.Doomed := by
  obtain ⟨tx, tx', hi, htxs, hnext⟩ := Schedule.step_cases hstep
  obtain ⟨hphase, ⟨u, hu, hunfinished⟩, hall⟩ := (State.overlooks_iff hi).1 hseen
  have htx := hc.fits i tx hi
  have htook : tx.Took st.rows := by simpa only [Tx.Progress, hphase] using htx.progress
  obtain ⟨hrun, rfl⟩ : st.rows = st'.rows ∧ { tx with phase := .commit } = tx' := by
    have hany : (tx.view st.rows).jobs.any (·.status.unfinished) = true :=
      List.any_eq_true.2 ⟨u, hu, hunfinished⟩
    simpa only [Tx.next, hphase, hany, if_true, Option.some.injEq, Prod.mk.injEq] using hnext
  -- The others that have counted are waiting to commit.
  have hcommit : ∀ {k : Nat} {ty : Tx}, k ≠ i → st.txs[k]? = some ty → ty.counted = true →
      ty.phase = .commit ∧ ty.status = none := by
    intro k ty hne hk hcounted
    have hnot := State.not_finalizing hc hi htook hk hne
    unfold Tx.counted at hcounted
    unfold Tx.finalizing at hnot
    cases hp : ty.phase <;> simp_all
  have hother : ∀ {k : Nat} {ty : Tx}, k ≠ i → st.txs[k]? = some ty →
      st'.txs[k]? = some ty := by grind
  have hthis : st'.txs[i]? = some { tx with phase := .commit } := by
    rw [htxs, getElem?_set_new hi]
  refine ⟨?_, fun j hj hj' => ?_, fun k ty hk => ?_⟩
  · obtain ⟨w, -, j, hj, -, hrunning⟩ := htook
    rw [← hrun, ← Bool.not_eq_true]
    exact fun hterm => hc.good.idle hterm j hj hrunning
  · rw [← hrun] at hj
    by_cases hended : j.name ∈ tx.ended
    · exact ⟨i, _, hthis, rfl, hended⟩
    · obtain ⟨k, ty, hne, hk, hcounted, hmem⟩ := hall j (Tx.mem_view hj hended) hj'
      exact ⟨k, ty, hother hne hk, (hcommit hne hk hcounted).1, hmem⟩
  · rw [htxs] at hk
    rcases getElem?_set_cases hk with ⟨rfl, rfl⟩ | ⟨hne, hk⟩
    · exact .inl ⟨rfl, htx.status (by simp [hphase])⟩
    · cases hcounted : ty.counted with
      | true => exact .inl (hcommit hne hk hcounted)
      | false =>
        refine .inr ⟨rfl, List.eq_nil_iff_forall_not_mem.2 fun w hw => ?_⟩
        -- A row written by one that has not counted would not be overlooked.
        obtain ⟨j, hj, hname, hj'⟩ := (hc.fits k ty hk).owns.unfinished w hw
        have hlocked := (hc.fits k ty hk).owns.locked w hw
        have hview : j ∈ (tx.view st.rows).jobs := by
          grind [htx.ended_locked, Tx.mem_view, State.apart]
        obtain ⟨k', ty', -, hk', hcounted', hmem⟩ := hall j hview hj'
        obtain rfl : k = k' :=
          State.apart hc hk hk' hlocked (hname ▸ (hc.fits k' ty' hk').ended_locked hmem)
        grind

/-- The unfinished jobs of a doomed run are locked. -/
theorem State.Doomed.held (h : st.Doomed) (hc : State.Consistent st) (hi : st.txs[i]? = some tx)
    (hphase : tx.phase ≠ .commit) (hj : j ∈ st.rows.jobs)
    (hunfinished : j.status.unfinished = true) :
    heldByOther Tx.locks st.txs i (.job j.name) = true := by
  obtain ⟨k, ty, hk, hcommit, hended⟩ := h.ended j hj hunfinished
  refine heldByOther_iff.2 ⟨k, ty, ?_, hk, decide_eq_true ((hc.fits k ty hk).ended_locked hended)⟩
  grind

/-- No transaction finds another job of a doomed run to end. -/
theorem State.Doomed.next_writes (h : st.Doomed) (hc : State.Consistent st)
    (hi : st.txs[i]? = some tx) (hphase : tx.phase ≠ .commit) (hnil : tx.writes = [])
    (hnext : tx.next s (fun row => !heldByOther Tx.locks st.txs i row) st.rows =
      some (r', tx')) : tx'.writes = [] := by
  have hprogress := (hc.fits i tx hi).progress
  have hnone : ¬ tx.Took st.rows := by
    rintro ⟨w, hw, -⟩
    simp [hnil] at hw
  unfold Tx.Progress at hprogress
  cases hp : tx.phase <;> simp only [hp] at hprogress
  case block | blocking | count => exact absurd hprogress hnone
  case commit => exact absurd hp hphase
  case update c =>
    obtain ⟨-, -, hlocked, j, hj, hname, hrunning⟩ := hprogress
    obtain ⟨k, ty, hne, hk, hheld⟩ := heldByOther_iff.1
      (h.held hc hi hphase hj (by rw [hrunning]; rfl))
    exact absurd (State.apart hc hk hi (of_decide_eq_true hheld) (hname ▸ hlocked)) hne
  case expire rows =>
    cases rows with
    | nil =>
      simp only [Tx.next, hp, if_pos hnil] at hnext
      cases hnext
      rfl
    | cons name rest =>
      simp only [Tx.next, hp] at hnext
      split_ifs at hnext with hfree
      cases hnext
      rcases tx.visit_cases (Job.expired tx.now) (fun j =>
        (j.finish .aborted tx.now (some "job lease expired")).releaseLease) st.rows name
        with heq | ⟨j, hj, rfl, hexpired, -⟩
      · rw [heq]
        exact hnil
      · simp only [Job.expired, Bool.and_eq_true, decide_eq_true_eq] at hexpired
        have hheld := h.held hc hi hphase hj (by rw [hexpired.1]; rfl)
        simp [hheld] at hfree
  case done => simp [Tx.next, hp] at hnext
  all_goals
    simp only [Tx.next, hp] at hnext
    try split_ifs at hnext
    all_goals
      cases hnext
      first | exact hnil | rfl

/-- **A doomed run stays doomed.** -/
theorem State.Doomed.step (h : st.Doomed) (hc : State.Consistent st)
    (hstep : st.step s i = some st') : st'.Doomed := by
  obtain ⟨tx, tx', hi, htxs, hnext⟩ := Schedule.step_cases hstep
  have htx := hc.fits i tx hi
  by_cases hphase : tx.phase = .commit
  · obtain ⟨hrun, rfl⟩ : tx.committed s st.rows = st'.rows ∧ tx.close = tx' := by
      simpa [Tx.next, hphase] using hnext
    have hstatus : tx.status = none := by grind [h.quiet, Tx.counted]
    refine ⟨?_, fun j hj hj' => ?_, fun k ty hk => ?_⟩
    · rw [← hrun, Tx.committed, hstatus]
      exact h.active
    · rw [← hrun] at hj
      obtain ⟨hold, hnot⟩ := htx.committed_unfinished hj hj'
      obtain ⟨k, ty, hk, hcommit, hended⟩ := h.ended j hold hj'
      have hne : k ≠ i := by grind
      exact ⟨k, ty, by rw [htxs, getElem?_set_old hne]; exact hk, hcommit, hended⟩
    · rw [htxs] at hk
      rcases getElem?_set_cases hk with ⟨-, rfl⟩ | ⟨-, hk⟩
      · exact .inr ⟨rfl, rfl⟩
      · exact h.quiet k ty hk
  · have hrun : st'.rows = st.rows := (Tx.next_open htx hc.good.names hphase hnext).run
    obtain ⟨hcounted, hnil⟩ := (h.quiet i tx hi).resolve_left fun hcommit => hphase hcommit.1
    have hcount : tx.phase ≠ .count := by
      intro hp
      have hprogress := htx.progress
      simp only [Tx.Progress, hp] at hprogress
      obtain ⟨w, hw, -⟩ := hprogress
      simp [hnil] at hw
    refine ⟨by rw [hrun]; exact h.active, fun j hj hj' => ?_, fun k ty hk => ?_⟩
    · obtain ⟨k, ty, hk, hcommit, hended⟩ := h.ended j (hrun ▸ hj) hj'
      have hne : k ≠ i := by grind
      exact ⟨k, ty, by rw [htxs, getElem?_set_old hne]; exact hk, hcommit, hended⟩
    · rw [htxs] at hk
      rcases getElem?_set_cases hk with ⟨-, rfl⟩ | ⟨-, hk⟩
      · exact .inr ⟨Tx.next_uncounted hcounted hcount hnext,
          h.next_writes hc hi hphase hnil hnext⟩
      · exact h.quiet k ty hk

theorem State.initial_consistent (hr : r.Steady) (programs : List (Time × Program)) :
    State.Consistent (State.initial r programs) := by
  have hstart : ∀ (i : Nat) (tx : Tx), (State.initial r programs).txs[i]? = some tx →
      ∃ now p, tx = Program.start now p := by
    intro i tx hi
    obtain ⟨p, -, rfl⟩ := List.mem_map.1 (List.mem_of_getElem? hi)
    exact ⟨p.1, p.2, rfl⟩
  refine ⟨⟨hr.names, hr.idle⟩, ?_, ?_⟩
  · intro i k tx ty row hi _ hrow _
    obtain ⟨now, p, rfl⟩ := hstart i tx hi
    cases row <;> cases p <;> simp [Program.start, Tx.locks] at hrow
  · intro i tx hi
    obtain ⟨now, p, rfl⟩ := hstart i tx hi
    exact p.start_consistent r now

theorem State.initial_witnessed (hr : r.Steady) (programs : List (Time × Program)) :
    (State.initial r programs).Witnessed := by
  by_cases hterm : r.status.terminal = true
  · exact .inl hterm
  · have hleft : ∃ j ∈ r.jobs, j.status.unfinished = true := by grind [hr.all_ended]
    obtain ⟨j, hj, hunfinished⟩ := hleft
    refine .inr (.inr ⟨j, hj, hunfinished, fun k ty hk hcounted => ?_⟩)
    obtain ⟨⟨now, p⟩, -, rfl⟩ := List.mem_map.1 (List.mem_of_getElem? hk)
    cases p <;> simp [Program.start, Tx.counted] at hcounted

/-- **Left behind or finalized.**  Let any number of `CompleteJob` and
`ExpireJobLeases` transactions take their statements on a run in any order until
all have ended.  The run is not left behind with all its jobs ended exactly when
no count was taken whose unfinished jobs had all been ended by other open
transactions that had already counted. -/
theorem finalized_iff_not_overlooked (hr : r.Steady) {programs : List (Time × Program)}
    {tr : List (Step State Nat)}
    (h : Trace (fun st i st' => st.step s i = some st') (State.initial r programs) tr st)
    (hdone : ∀ tx ∈ st.txs, tx.phase = .done) :
    ¬ st.rows.Stuck ↔ ∀ step ∈ tr, step.before.overlooks step.act = false := by
  constructor
  · intro hnot step hstep
    rw [← Bool.not_eq_true]
    intro hseen
    obtain ⟨pre, post, rfl⟩ := List.append_of_mem hstep
    obtain ⟨hpre, hnext, hpost⟩ := h.split
    have hc : State.Consistent step.before := hpre.final_invariant (fun st => State.Consistent st)
      (State.initial_consistent hr programs) fun _ _ _ hst hs => State.consistent_step hst hs
    obtain ⟨-, hdoomed⟩ := hpost.final_invariant (fun st => State.Consistent st ∧ st.Doomed)
      ⟨State.consistent_step hc hnext, State.doomed_of_overlooks hc hseen hnext⟩
      fun _ _ _ hst hs => ⟨State.consistent_step hst.1 hs, hst.2.step hst.1 hs⟩
    refine hnot ⟨fun j hj => ?_, hdoomed.active⟩
    rw [← Bool.not_eq_true]
    intro hunfinished
    obtain ⟨k, ty, hk, hcommit, -⟩ := hdoomed.ended j hj hunfinished
    simp [hdone ty (List.mem_of_getElem? hk)] at hcommit
  · rintro hguard ⟨hall, hactive⟩
    obtain ⟨⟨-, hwitnessed⟩, -⟩ := h.guarded (fun st => State.Consistent st ∧ st.Witnessed)
      (fun st i => st.overlooks i = false)
      ⟨State.initial_consistent hr programs, State.initial_witnessed hr programs⟩
      (fun _ _ _ hst hseen hs => ⟨State.consistent_step hst.1 hs, hst.2.step hst.1 hs hseen⟩) hguard
    rcases hwitnessed with hterm | ⟨k, ty, hk, hfinal⟩ | ⟨j, hj, hunfinished, -⟩
    · simp [hactive] at hterm
    · simp [Tx.finalizing, hdone ty (List.mem_of_getElem? hk)] at hfinal
    · simp [hall j hj] at hunfinished

/-- A transaction about to write a final status has locked the run, which has
none. -/
def State.Ending (st : State) : Prop :=
  ∀ (k : Nat) (ty : Tx), st.txs[k]? = some ty → ty.status ≠ none →
    ty.runLocked = true ∧ st.rows.status.terminal = false

theorem Tx.next_status {free : Row → Bool} (h : tx.Consistent r)
    (hnames : (r.jobs.map Job.name).Nodup) (hopen : tx.phase ≠ .commit)
    (hnext : tx.next s free r = some (r', tx')) (hstatus : tx'.status ≠ none) :
    tx'.runLocked = true ∧ r.status.terminal = false := by
  have hnone := h.status hopen
  by_cases hphase : tx.counted = false ∧ tx.phase ≠ .count
  · have huncounted := Tx.next_uncounted hphase.1 hphase.2 hnext
    have hnot : tx'.phase ≠ .commit := fun hp => by simp [counted, hp] at huncounted
    exact absurd ((Tx.next_open h hnames hopen hnext).consistent.status hnot) hstatus
  · cases hp : tx.phase <;> simp [counted, hp] at hphase hopen <;> grind [next]

/-- A commit with a final status is the only step that writes the run row. -/
theorem State.Ending.step_rows (h : st.Ending) (hc : State.Consistent st)
    (hstep : st.step s i = some st') (hterm : st.rows.status.terminal = true) :
    st'.rows = st.rows.withJobs st'.rows.jobs := by
  obtain ⟨tx, tx', hi, -, hnext⟩ := Schedule.step_cases hstep
  by_cases hcommit : tx.phase = .commit
  · obtain ⟨hrun, -⟩ := Prod.mk.inj (Option.some.inj ((Tx.next_commit hcommit).symm.trans hnext))
    have hnone : tx.status = none := by
      by_contra hstatus
      exact absurd hterm (by simp [(h i tx hi hstatus).2])
    rw [← hrun, Tx.committed, hnone]
    rfl
  · rw [show st'.rows = st.rows from
      (Tx.next_open (hc.fits i tx hi) hc.good.names hcommit hnext).run]
    rfl

theorem State.Ending.step (h : st.Ending) (hc : State.Consistent st)
    (hstep : st.step s i = some st') : st'.Ending := by
  obtain ⟨tx, tx', hi, htxs, hnext⟩ := Schedule.step_cases hstep
  intro k ty hk hty
  rw [htxs] at hk
  by_cases hcommit : tx.phase = .commit
  · obtain ⟨hrun, rfl⟩ := Prod.mk.inj (Option.some.inj ((Tx.next_commit hcommit).symm.trans hnext))
    rcases getElem?_set_cases hk with ⟨-, rfl⟩ | ⟨hne, hk⟩
    · exact absurd rfl hty
    · obtain ⟨hlocked, hterm⟩ := h k ty hk hty
      -- Whoever commits a final status holds the run row, so no other does.
      have hnone : tx.status = none := by
        by_contra hstatus
        exact hne (hc.apart hk hi (k := .run) hlocked (h i tx hi hstatus).1)
      rw [← hrun, Tx.committed, hnone]
      exact ⟨hlocked, hterm⟩
  · have hrun : st'.rows = st.rows :=
      (Tx.next_open (hc.fits i tx hi) hc.good.names hcommit hnext).run
    rw [hrun]
    rcases getElem?_set_cases hk with ⟨-, rfl⟩ | ⟨-, hk⟩
    · exact Tx.next_status (hc.fits i tx hi) hc.good.names hcommit hnext hty
    · exact h k ty hk hty

/-- An ended job keeps its row. -/
theorem State.step_keeps (hc : State.Consistent st) (hstep : st.step s i = some st')
    (hended : j.status.unfinished = false) (hj : j ∈ st.rows.jobs) : j ∈ st'.rows.jobs := by
  obtain ⟨tx, tx', hi, -, hnext⟩ := Schedule.step_cases hstep
  by_cases hcommit : tx.phase = .commit
  · obtain ⟨hrun, -⟩ := Prod.mk.inj (Option.some.inj ((Tx.next_commit hcommit).symm.trans hnext))
    rw [← hrun, Tx.committed_jobs]
    refine Tx.mem_view hj fun hwritten => ?_
    obtain ⟨w, hw, hname⟩ := List.mem_map.1 hwritten
    obtain ⟨k, hk, hkey, hunfinished⟩ := (hc.fits i tx hi).owns.unfinished w hw
    obtain rfl := List.inj_on_of_nodup_map hc.good.names hk hj (hkey.trans hname)
    simp [hended] at hunfinished
  · rw [show st'.rows = st.rows from
      (Tx.next_open (hc.fits i tx hi) hc.good.names hcommit hnext).run]
    exact hj

/-- **Ended for good.**  Whatever the order in which `CompleteJob` and
`ExpireJobLeases` take their statements, and whether or not one of their counts
overlooks the last jobs, the row of an ended job is never written again, and once
the run has a final status neither its row nor an expiry of its artifacts is. -/
theorem ended_never_rewritten (hr : r.Steady) {programs : List (Time × Program)}
    {tr : List (Step State Nat)}
    (h : Trace (fun st i st' => st.step s i = some st') (State.initial r programs) tr st) :
    ∀ step ∈ tr,
      (∀ j ∈ step.before.rows.jobs, j.status.unfinished = false → j ∈ st.rows.jobs) ∧
      (step.before.rows.status.terminal = true →
        st.rows = step.before.rows.withJobs st.rows.jobs) := by
  intro step hmem
  have hc₀ := State.initial_consistent hr programs
  have hending₀ : (State.initial r programs).Ending := by
    intro k ty hk hty
    obtain ⟨p, -, rfl⟩ := List.mem_map.1 (List.mem_of_getElem? hk)
    exact absurd ((p.2.start_consistent r p.1).status (by cases p.2 <;> simp [Program.start])) hty
  have hkeep : ∀ st i st', State.Consistent st ∧ st.Ending → st.step s i = some st' →
      State.Consistent st' ∧ st'.Ending :=
    fun _ _ _ hst hs => ⟨State.consistent_step hst.1 hs, hst.2.step hst.1 hs⟩
  obtain ⟨hc, hending⟩ := (h.invariant _ ⟨hc₀, hending₀⟩ hkeep step hmem).1
  obtain ⟨-, -, hnext⟩ := h.step_of_mem hmem
  refine ⟨fun j hj hended => ?_, fun hterm => ?_⟩
  · exact h.kept _ (j ∈ ·.rows.jobs) ⟨hc₀, hending₀⟩ hkeep
      (fun _ _ _ hst hs => State.step_keeps hst.1 hs hended) hmem
      (State.step_keeps hc hnext hended hj)
  · refine h.kept _ (fun st => st.rows = step.before.rows.withJobs st.rows.jobs)
      ⟨hc₀, hending₀⟩ hkeep (fun st i st' hst hs heq => ?_) hmem (hending.step_rows hc hnext hterm)
    rw [hst.2.step_rows hst.1 hs (by rw [heq]; exact hterm), heq]
    rfl

/-! ## An instance

Two jobs are leased, the second lease outlives the first.  Then a sweep ends the
first job while its runner reports the second. -/

namespace Sample

open Postgres.Sample

def leaseBoth : List Request :=
  [⟨0, .createRun (submission 1 pair pairGraph 2 (some snapshot))⟩,
    ⟨1, .registerRunner { runner with maxParallel := 2 }⟩,
    ⟨2, .leaseJob 7 100⟩, ⟨20000000, .leaseJob 7 101⟩]

theorem leaseBoth_accepted : ∀ q ∈ leaseBoth, q.Accepted := by
  intro q hq input hinput
  simp only [leaseBoth, List.mem_cons, List.not_mem_nil, or_false] at hq
  rcases hq with rfl | rfl | rfl | rfl
  · cases hinput
    exact ⟨pair, compiled_pair 2⟩
  all_goals cases hinput

def bothRunning : Run :=
  (Database.empty.after settings leaseBoth).runs.head (by decide)

def programs : List (Time × Program) :=
  [(40000000, .expireJobLeases),
    (40000000, .completeJob ⟨⟨1, some 7, some 101, "lint", 1⟩, .passed, none⟩)]

/-- Both count before either commits. -/
def crossing : List Nat := [0, 0, 0, 0, 0, 1, 1, 1, 1, 0, 1, 0, 1]

/-- One after the other. -/
def serial : List Nat := [0, 0, 0, 0, 0, 0, 0, 1, 1, 1, 1, 1, 1, 1, 1]

theorem bothRunning_steady : bothRunning.Steady :=
  (Reaches.scheduled (Database.record_trace settings .empty leaseBoth)
    (fun _ hst => leaseBoth_accepted _ (Database.act_mem_of_record hst)) bothRunning
    (List.head_mem _)).1.steady

/-- The state a schedule of the two transactions ends in. -/
def outcome (schedule : List Nat) : Option State :=
  schedule.foldlM (State.step settings) (State.initial bothRunning programs)

theorem crossing_outcome : ∃ st, outcome crossing = some st ∧
    (∀ tx ∈ st.txs, tx.phase = .done) ∧ st.rows.Stuck := by
  have h : (outcome crossing).any (fun st =>
      decide ((∀ tx ∈ st.txs, tx.phase = .done) ∧ st.rows.Stuck)) = true := by decide
  obtain ⟨st, hst, hstuck⟩ := (Option.any_eq_true _ _).1 h
  exact ⟨st, hst, of_decide_eq_true hstuck⟩

theorem serial_outcome : ∃ st, outcome serial = some st ∧
    (∀ tx ∈ st.txs, tx.phase = .done) ∧ st.rows.status = .aborted := by
  have h : (outcome serial).any (fun st =>
      decide ((∀ tx ∈ st.txs, tx.phase = .done) ∧ st.rows.status = .aborted)) = true := by decide
  obtain ⟨st, hst, haborted⟩ := (Option.any_eq_true _ _).1 h
  exact ⟨st, hst, of_decide_eq_true haborted⟩

end Sample

/-- A sweep and a completion that both count before either commits leave the run
`RUNNING` with all its jobs ended. -/
theorem crossing_counts_leave_run_behind :
    ¬ ∀ (s : Settings) (past : List (Step Database Request)) (db : Database),
      Reaches s past db → (∀ st ∈ past, st.act.Accepted) →
      ∀ r ∈ db.runs, ∀ (programs : List (Time × Program)) (tr : List (Step State Nat))
        (st : State), Trace (fun st i st' => st.step s i = some st')
          (State.initial r programs) tr st →
        (∀ tx ∈ st.txs, tx.phase = .done) → ¬ st.rows.Stuck := by
  intro hall
  obtain ⟨st, hst, hdone, hstuck⟩ := Sample.crossing_outcome
  obtain ⟨tr, htr, -⟩ := Trace.of_foldlM hst
  exact hall Postgres.Sample.settings _ _
    (Database.record_trace Postgres.Sample.settings .empty Sample.leaseBoth)
    (fun _ hst => Sample.leaseBoth_accepted _ (Database.act_mem_of_record hst))
    Sample.bothRunning (List.head_mem _) Sample.programs tr st htr hdone hstuck

/-- One after the other, the two transactions end the run. -/
theorem serial_counts_overlook_nothing : ∃ (tr : List (Step State Nat)) (st : State),
      Trace (fun st i st' => st.step Postgres.Sample.settings i = some st')
        (State.initial Sample.bothRunning Sample.programs) tr st ∧
      st.rows.status = .aborted ∧ ∀ step ∈ tr, step.before.overlooks step.act = false := by
  obtain ⟨st, hst, hdone, haborted⟩ := Sample.serial_outcome
  obtain ⟨tr, htr, -⟩ := Trace.of_foldlM hst
  refine ⟨tr, st, htr, haborted,
    (finalized_iff_not_overlooked Sample.bothRunning_steady htr hdone).1 ?_⟩
  rintro ⟨-, hactive⟩
  rw [haborted] at hactive
  cases hactive

/-- In the crossing schedule too, no job is ended twice. -/
theorem crossing_never_rewrites : ∃ (tr : List (Step State Nat)) (st : State),
      Trace (fun st i st' => st.step Postgres.Sample.settings i = some st')
        (State.initial Sample.bothRunning Sample.programs) tr st ∧ st.rows.Stuck ∧
      ∀ step ∈ tr, ∀ j ∈ step.before.rows.jobs, j.status.unfinished = false →
        j ∈ st.rows.jobs := by
  obtain ⟨st, hst, -, hstuck⟩ := Sample.crossing_outcome
  obtain ⟨tr, htr, -⟩ := Trace.of_foldlM hst
  exact ⟨tr, st, htr, hstuck, fun step hstep =>
    (ended_never_rewritten Sample.bothRunning_steady htr step hstep).1⟩

end ReadCommitted

end Postgres
