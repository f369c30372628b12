import ForgeCI.RunChanges

/-!
# The jobs that `blockDependents` blocks

`blockDependents` repeats one statement until no row changes.  What it computes does not mention
the repetitions: a pending job is blocked exactly when its dependencies lead, through pending
jobs only, to a job that did not pass.
-/

namespace Postgres

namespace Run

variable {now : Time} {r r' : Run} {j j' : Job} {name : String} {n fuel : Nat}

/-- The loop of `blockDependents` runs `n` statements, and the last one affects no row. -/
inductive Rounds (now : Time) : Run → Nat → Run → Prop
  | last {r : Run} (hnone : r.jobs.any r.blockable = false) : Rounds now r 1 r
  | again {r r' : Run} {n : Nat} (hsome : r.jobs.any r.blockable = true)
      (hrest : Rounds now (r.blockOnce now) n r') : Rounds now r (n + 1) r'

theorem rounds_blockLoop (hfuel : r.jobs.countP (·.status = .pending) < fuel) :
    ∃ n ≤ r.jobs.countP (·.status = .pending) + 1, Rounds now r n (r.blockLoop now fuel) := by
  induction fuel generalizing r with
  | zero => omega
  | succ fuel ih =>
    rw [blockLoop]
    by_cases hany : r.jobs.any r.blockable = true
    · have hless := countP_pending_blockOnce now hany
      obtain ⟨n, hn, hrounds⟩ := ih (r := r.blockOnce now) (by omega)
      rw [if_pos hany]
      exact ⟨n + 1, by omega, .again hany hrounds⟩
    · rw [if_neg hany]
      exact ⟨1, by omega, .last (by simpa using hany)⟩

/-- A job depends on a pending one. -/
def PendingEdge (r : Run) (a b : String) : Prop :=
  ⟨a, b⟩ ∈ r.dependencies ∧ ∃ k ∈ r.jobs, k.name = b ∧ k.status = .pending

/-- Dependencies lead from a job, through pending jobs, to one that did not pass. -/
def ReachesFailure (r : Run) (name : String) : Prop :=
  ∃ last, Relation.ReflTransGen r.PendingEdge name last ∧
    ∃ u ∈ r.jobs, ⟨last, u.name⟩ ∈ r.dependencies ∧ u.status.failing = true

theorem reachesFailure_of_dependencyFailing (h : r.dependencyFailing j = true) :
    r.ReachesFailure j.name := by
  obtain ⟨d, hd, hdj, u, hu, hud, hfailing⟩ := dependencyFailing_iff.1 h
  refine ⟨j.name, .refl, u, hu, ?_, hfailing⟩
  rw [hud, ← hdj]
  exact hd

/-- A row after one statement: as it was, or blocked by it. -/
theorem mem_blockOnce (h : j' ∈ (r.blockOnce now).jobs) :
    j' ∈ r.jobs ∨ ∃ j ∈ r.jobs, r.blockable j = true ∧
      j' = j.finish .blocked now (some "upstream dependency did not pass") := by
  obtain ⟨j, hj, rfl⟩ := Table.mem_updateWhere.1 h
  grind

theorem pendingEdge_of_blockOnce {a b : String} (h : (r.blockOnce now).PendingEdge a b) :
    r.PendingEdge a b := by
  obtain ⟨hdep, k', hk', hname, hpending⟩ := h
  refine ⟨hdep, ?_⟩
  rcases mem_blockOnce hk' with hk | ⟨k, -, -, rfl⟩
  · exact ⟨k', hk, hname, hpending⟩
  · simp at hpending

/-- **One statement opens no new way to a failure**: what it blocks led to one before. -/
theorem reachesFailure_of_blockOnce (h : (r.blockOnce now).ReachesFailure name) :
    r.ReachesFailure name := by
  obtain ⟨last, hpath, u', hu', hdep, hfailing⟩ := h
  have hold : Relation.ReflTransGen r.PendingEdge name last :=
    Relation.ReflTransGen.mono (fun _ _ => pendingEdge_of_blockOnce) _ _ hpath
  rcases mem_blockOnce hu' with hu | ⟨u, hu, hblock, rfl⟩
  · exact ⟨last, hold, u', hu, hdep, hfailing⟩
  · simp only [blockable, Bool.and_eq_true, decide_eq_true_eq] at hblock
    obtain ⟨hpending, hfail⟩ := hblock
    obtain ⟨end', hmore, hend⟩ := reachesFailure_of_dependencyFailing hfail
    have hedge : r.PendingEdge last u.name := ⟨hdep, u, hu, rfl, hpending⟩
    exact ⟨end', hold.trans (.head hedge hmore), hend⟩

/-- A row before and after: blocked for a failure, or left alone. -/
def Owes (now : Time) (r : Run) (j j' : Job) : Prop :=
  j' = j ∨ (j.status = .pending ∧ r.ReachesFailure j.name ∧
    j' = j.finish .blocked now (some "upstream dependency did not pass"))

/-- Only jobs that lead to a failure are blocked. -/
theorem blockLoop_owes (now : Time) (fuel : Nat) :
    List.Forall₂ (Owes now r) r.jobs (r.blockLoop now fuel).jobs := by
  induction fuel generalizing r with
  | zero => exact List.forall₂_same.2 fun j _ => .inl rfl
  | succ fuel ih =>
    rw [blockLoop]
    split_ifs with hany
    · have hfirst : List.Forall₂ (Owes now r) r.jobs (r.blockOnce now).jobs := by
        refine Table.forall₂_updateWhere fun j _ => ?_
        by_cases hblock : r.blockable j = true
        · rw [if_pos hblock]
          simp only [blockable, Bool.and_eq_true, decide_eq_true_eq] at hblock
          exact .inr ⟨hblock.1, reachesFailure_of_dependencyFailing hblock.2, rfl⟩
        · rw [if_neg hblock]
          exact .inl rfl
      refine Table.forall₂_trans (fun a b c hab hbc => ?_) hfirst (ih (r := r.blockOnce now))
      rcases hbc with rfl | ⟨hpending, hreach, rfl⟩
      · exact hab
      · rcases hab with rfl | ⟨-, -, rfl⟩
        · exact .inr ⟨hpending, reachesFailure_of_blockOnce hreach, rfl⟩
        · simp at hpending
    · exact List.forall₂_same.2 fun j _ => .inl rfl

/-- A job that led to a failure through pending jobs is not pending in the end. -/
theorem not_pending_of_reachesFailure (h : r.ReachesFailure name)
    (hrows : List.Forall₂ (Blocks now) r.jobs r'.jobs) (hdeps : r'.dependencies = r.dependencies)
    (hclosed : ∀ j ∈ r'.jobs, j.status = .pending → r'.dependencyFailing j = false) :
    ∀ j ∈ r'.jobs, j.name = name → j.status ≠ .pending := by
  -- along the path from its end: what it leads to is failing by then
  have hstep : ∀ a b, ⟨a, b⟩ ∈ r.dependencies →
      (∃ u ∈ r'.jobs, u.name = b ∧ u.status.failing = true) →
      ∀ j ∈ r'.jobs, j.name = a → j.status ≠ .pending := by
    rintro a b hdep ⟨u, hu, hub, hfailing⟩ j hj rfl hpending
    have hclear := hclosed j hj hpending
    rw [← Bool.not_eq_true, dependencyFailing_iff] at hclear
    exact hclear ⟨⟨j.name, b⟩, hdeps ▸ hdep, rfl, u, hu, hub, hfailing⟩
  obtain ⟨last, hpath, u, hu, hdep, hfailing⟩ := h
  induction hpath using Relation.ReflTransGen.head_induction_on with
  | refl =>
    obtain ⟨u', hu', hblocks⟩ := Table.exists_new hrows hu
    apply hstep last u.name hdep
    rcases hblocks with rfl | ⟨hpending, -⟩
    · exact ⟨u', hu', rfl, hfailing⟩
    · rw [hpending] at hfailing
      cases hfailing
  | head hedge _ ih =>
    obtain ⟨hnext, k, hk, rfl, hkpending⟩ := hedge
    obtain ⟨k', hk', hblocks⟩ := Table.exists_new hrows hk
    apply hstep _ k.name hnext
    refine ⟨k', hk', hblocks.name_eq, ?_⟩
    rcases hblocks with rfl | ⟨-, rfl⟩
    · exact absurd hkpending (ih k' hk' rfl)
    · rfl

/-- **What becomes of each row.**  A pending job that leads to a failure is blocked, and every
other row is left alone. -/
theorem blockDependents_blocks (now : Time) (r : Run) :
    List.Forall₂ (fun j j' =>
      (j.status = .pending ∧ r.ReachesFailure j.name ∧
        j' = j.finish .blocked now (some "upstream dependency did not pass")) ∨
      (¬(j.status = .pending ∧ r.ReachesFailure j.name) ∧ j' = j))
      r.jobs (r.blockDependents now).jobs := by
  obtain ⟨jobs, heq, hblocks, hclosed⟩ := r.blockDependents_spec now
  have howes : List.Forall₂ (Owes now r) r.jobs (r.blockDependents now).jobs :=
    blockLoop_owes now _
  rw [heq] at howes ⊢
  have hthere : List.Forall₂ (fun j' j => j' ∈ jobs ∧ Owes now r j j') jobs r.jobs :=
    (List.forall₂_and_left _ _).2 ⟨fun _ h => h, howes.flip⟩
  refine hthere.flip.imp fun j j' h => ?_
  obtain ⟨hj', rfl | hblocked⟩ := h
  · refine .inr ⟨?_, rfl⟩
    rintro ⟨hpending, hreach⟩
    have hleft : ∀ k ∈ (r.withJobs jobs).jobs, k.name = j'.name → k.status ≠ .pending :=
      not_pending_of_reachesFailure hreach hblocks rfl hclosed
    exact hleft j' hj' rfl hpending
  · exact .inl hblocked

/-- **`blockDependents` computes the blocked closure**: after at most one statement more than
there are pending jobs, exactly the pending jobs that lead to a failure through pending jobs are
blocked, nothing else has changed, and a second call changes nothing. -/
theorem blockDependents_closure (now : Time) (r : Run) :
    (∃ n ≤ r.jobs.countP (·.status = .pending) + 1, Rounds now r n (r.blockDependents now)) ∧
    r.blockDependents now = r.withJobs (r.blockDependents now).jobs ∧
    List.Forall₂ (fun j j' =>
      (j.status = .pending ∧ r.ReachesFailure j.name ∧
        j' = j.finish .blocked now (some "upstream dependency did not pass")) ∨
      (¬(j.status = .pending ∧ r.ReachesFailure j.name) ∧ j' = j))
      r.jobs (r.blockDependents now).jobs ∧
    ∀ later, (r.blockDependents now).blockDependents later = r.blockDependents now := by
  obtain ⟨jobs, heq, -, hclosed⟩ := r.blockDependents_spec now
  refine ⟨rounds_blockLoop (Nat.lt_succ_self _), by rw [heq]; rfl, blockDependents_blocks now r,
    fun later => ?_⟩
  have hnone : ((r.withJobs jobs).jobs.any (r.withJobs jobs).blockable) = false := by
    rw [List.any_eq_false]
    intro j hj hblock
    simp only [blockable, Bool.and_eq_true, decide_eq_true_eq] at hblock
    rw [hclosed j hj hblock.1] at hblock
    cases hblock.2
  rw [heq, blockDependents, blockLoop, hnone]
  rfl

end Run

end Postgres
