import ForgeCI.LeaseEvents

/-!
# Registrations of runners

What the store knows of a runner is what the runner last registered, together with
when it was last seen.
-/

namespace Postgres

open Traces

variable {s : Settings} {now : Time} {t t' : Rows} {call : Call}
variable {w w' : Runner} {db : Database}
variable {tr : List (Step Database Request)} {st : Step Database Request}

/-- The columns of a runner that only a registration writes. -/
def Runner.SameRegistration (w w' : Runner) : Prop :=
  w'.id = w.id ∧ w'.protocolVersion = w.protocolVersion ∧
    w'.dockerAvailable = w.dockerAvailable ∧ w'.maxParallel = w.maxParallel

theorem Runner.SameRegistration.refl (w : Runner) : w.SameRegistration w :=
  ⟨rfl, rfl, rfl, rfl⟩

theorem Runner.SameRegistration.trans {w₁ w₂ w₃ : Runner} (h : w₁.SameRegistration w₂)
    (h' : w₂.SameRegistration w₃) : w₁.SameRegistration w₃ :=
  ⟨h'.1.trans h.1, h'.2.1.trans h.2.1, h'.2.2.1.trans h.2.2.1, h'.2.2.2.trans h.2.2.2⟩

/-- `RegisterRunner` writes the row of its runner and no other. -/
theorem mem_registerRunner (h : w' ∈ (registerRunner now w t).runners) :
    w' = { w with status := .online, lastSeenAt := now } ∨ (w' ∈ t.runners ∧ w'.id ≠ w.id) := by
  unfold registerRunner at h
  split at h
  · rename_i hnone
    rcases List.mem_append.1 h with hold | hnew
    · refine .inr ⟨hold, fun hid => ?_⟩
      simpa [hid] using List.find?_eq_none.1 hnone w' hold
    · exact .inl (List.mem_singleton.1 hnew)
  · obtain ⟨x, hx, rfl⟩ := Table.mem_updateWhere.1 h
    grind

/-- A heartbeat marks its runner as seen. -/
theorem mem_heartbeatJobLeases {runner : Uuid} {leases : List LeaseHeartbeat}
    {results : List LeaseHeartbeatResult}
    (h : heartbeatJobLeases now runner leases t = .ok (t', results)) (hw : w' ∈ t'.runners) :
    ∃ w ∈ t.runners, w.SameRegistration w' := by
  unfold heartbeatJobLeases at h
  split at h
  · cases h
  rename_i seen hseen
  have hrows := congrArg (fun p : Rows × List LeaseHeartbeatResult => p.1.runners) (Except.ok.inj h)
  obtain ⟨runs, hframe⟩ := Rows.heartbeats_frame now runner leases _
  rw [hframe] at hrows
  rw [← hrows] at hw
  obtain ⟨x, hx, rfl⟩ := Table.mem_updateWhere.1 hw
  split_ifs
  · exact ⟨seen, (Table.row?_some hseen).1, ⟨rfl, rfl, rfl, rfl⟩⟩
  · exact ⟨x, hx, .refl x⟩

theorem mem_expireJobLeases (h : expireJobLeases s now t = .ok t') (hw : w' ∈ t'.runners) :
    ∃ w ∈ t.runners, w.SameRegistration w' := by
  unfold expireJobLeases at h
  split at h
  · cases h
  rw [← Except.ok.inj h] at hw
  obtain ⟨x, hx, rfl⟩ := Table.mem_updateWhere.1 hw
  split_ifs
  · exact ⟨x, hx, ⟨rfl, rfl, rfl, rfl⟩⟩
  · exact ⟨x, hx, .refl x⟩

/-- **What a call does to the runner rows**: a row keeps its registration, or is the
one the call registers. -/
theorem exec_runners {reply : Reply} (h : exec s now t call = .ok (t', reply))
    (hw : w' ∈ t'.runners) : (∃ w, call = .registerRunner w ∧ w.SameRegistration w') ∨
      ((∀ w, call = .registerRunner w → w'.id ≠ w.id) ∧
        ∃ w ∈ t.runners, w.SameRegistration w') := by
  by_cases hcall : call.ofRunners = false
  · refine .inr ⟨?_, w', (exec_frame h).runners hcall ▸ hw, .refl w'⟩
    rintro w rfl
    cases hcall
  cases call with
  | registerRunner w =>
    cases h
    rcases mem_registerRunner hw with rfl | ⟨hold, hid⟩
    · exact .inl ⟨w, rfl, ⟨rfl, rfl, rfl, rfl⟩⟩
    · refine .inr ⟨fun w₁ hw₁ => ?_, w', hold, .refl w'⟩
      rwa [← Call.registerRunner.inj hw₁]
  | heartbeatJobLeases runner leases =>
    obtain ⟨⟨t₁, results⟩, hok, ⟨⟩⟩ := map_ok h
    exact .inr ⟨by simp, mem_heartbeatJobLeases hok hw⟩
  | expireJobLeases => exact .inr ⟨by simp, mem_expireJobLeases (map_done h).1 hw⟩
  | _ => exact absurd rfl hcall

/-- `RegisterRunner` succeeded for the runner. -/
def Registers (s : Settings) (st : Step Database Request) (w : Runner) : Prop :=
  st.act.call = .registerRunner w ∧ reply s st = .ok .done

/-- The last registration of a runner in a run of the system. -/
def LastRegistered (s : Settings) (tr : List (Step Database Request)) (w : Runner) : Prop :=
  ∃ pre st post, tr = pre ++ st :: post ∧ Registers s st w ∧
    ∀ st' ∈ post, ∀ w', Registers s st' w' → w'.id ≠ w.id

theorem LastRegistered.snoc (h : LastRegistered s tr w)
    (hlast : ∀ w', Registers s st w' → w'.id ≠ w.id) : LastRegistered s (tr ++ [st]) w := by
  grind [LastRegistered, Registers]

/-- **A runner row carries the last registration of its runner.** -/
theorem Reaches.registered (h : Reaches s tr db) :
    ∀ w ∈ db.runners, ∃ w₀, LastRegistered s tr w₀ ∧ w₀.SameRegistration w := by
  induction h with
  | nil =>
    intro w hw
    cases hw
  | @snoc tr db db' q run step ih =>
    intro w' hw'
    cases hreply : (db.serve s q).2 with
    | error e =>
      obtain rfl := step.of_error hreply
      obtain ⟨w₀, hlast, hsame⟩ := ih w' hw'
      refine ⟨w₀, hlast.snoc fun w hw => ?_, hsame⟩
      have hdone : (db'.serve s q).2 = .ok .done := hw.2
      rw [hreply] at hdone
      cases hdone
    | ok x =>
      have hexec := Database.serve_ok hreply
      rw [show (db.serve s q).1 = db' from step] at hexec
      rcases exec_runners hexec hw' with ⟨w₀, hcall, hsame⟩ | ⟨hother, w, hw, hsame⟩
      · refine ⟨w₀, ⟨tr, ⟨db, q, db'⟩, [], rfl, ⟨hcall, ?_⟩, by simp⟩, hsame⟩
        rw [hcall] at hexec
        show (db.serve s q).2 = _
        rw [hreply, (Prod.mk.inj (Except.ok.inj hexec)).2]
      · obtain ⟨w₀, hlast, hsame₀⟩ := ih w hw
        refine ⟨w₀, hlast.snoc fun w₁ hw₁ hid => ?_, hsame₀.trans hsame⟩
        refine hother w₁ hw₁.1 ?_
        rw [hid]
        exact (hsame₀.trans hsame).1

end Postgres
