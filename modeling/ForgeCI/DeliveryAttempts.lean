import ForgeCI.DeliveryRuns

/-!
# How often a delivery is claimed

The limit on the attempts is tested where a worker reports a failure.  A claim that expires
without a report makes its delivery claimable as well, and there nothing tests the limit.
-/

namespace ScmWorker

open Postgres Scm Traces

variable {cfg : Nat → Config} {s : Settings} {sys sys' : System} {act : Action} {limit : Nat}
variable {tr : List (Step System Action)} {st : Step System Action} {w : Nat} {token : Uuid}
variable {d d' : Delivery}

/-- The call a worker claims a delivery with. -/
def claimCall (cfg : Config) (token : Uuid) : Call :=
  .claimSCMDelivery token cfg.workerID cfg.lease

/-- The step claims the delivery. -/
def claims (id : Uuid) (st : Step System Action) : Bool :=
  match st.act with
  | .work w (.claim token) =>
      match st.after.worker w with
      | .lookup c => c.token = token && c.delivery.id = id
      | _ => false
  | _ => false

/-- An attempt at the delivery is under way: it is `PROCESSING` under a claim that has not
expired. -/
def underway (now : Time) (d : Delivery) : Bool :=
  d.status = .processing && d.claimExpiresAt.any (now < ·)

/-- The action lets a last attempt expire: time passes, and reaches the expiry of the claim of a
delivery that is under its last attempt, which nobody has reported. -/
def LetsExpire (limit : Nat) (sys : System) : Action → Prop
  | .pass time => ∃ d ∈ sys.db.deliveries, d.attemptCount = limit ∧
      underway sys.clock d = true ∧ underway (sys.clock + time) d = false
  | _ => False

/-- A claim that is not granted changes no row. -/
theorem unclaimed_rows (h : ∀ d, sys.reply s (claimCall (cfg w) token) ≠ .ok (.delivery (some d))) :
    (sys.serve s (claimCall (cfg w) token)).db.deliveries = sys.db.deliveries := by
  rcases sys.db.serve_cases s ⟨sys.clock, claimCall (cfg w) token⟩ with
    ⟨t', reply, hexec, hrows, hreply⟩ | ⟨hsame, -⟩
  · obtain ⟨⟨t, claimed⟩, hok, ⟨⟩⟩ := map_ok hexec
    rcases claimSCMDelivery_deliveries hok with ⟨rfl, -⟩ | ⟨d, -, -, -, rfl⟩
    · rw [System.serve, hrows]
    · exact absurd hreply (h _)
  · rw [System.serve, hsame]

/-- **What a claim does.** -/
theorem claim_cases (h : step cfg s sys (.work w (.claim token)) = some sys') :
    (sys'.db.deliveries = sys.db.deliveries ∧ sys'.worker w = .idle ∧
        ∀ d, sys.reply s (claimCall (cfg w) token) ≠ .ok (.delivery (some d))) ∨
      ∃ d ∈ sys.db.deliveries, d.claimable sys.clock = true ∧
        sys.reply s (claimCall (cfg w) token) =
          .ok (.delivery (some (d.claimed sys.clock token (cfg w).workerID (cfg w).lease))) ∧
        sys'.worker w =
          .lookup ⟨d.claimed sys.clock token (cfg w).workerID (cfg w).lease, token⟩ ∧
        d.claimed sys.clock token (cfg w).workerID (cfg w).lease ∈ sys'.db.deliveries ∧
        ∀ d' ∈ sys'.db.deliveries,
          d' = d.claimed sys.clock token (cfg w).workerID (cfg w).lease ∨
            d' ∈ sys.db.deliveries := by
  simp only [step, System.work] at h
  split at h
  · rename_i hidle
    split_ifs at h with hfresh
    by_cases hgranted : ∃ d, sys.reply s (claimCall (cfg w) token) = .ok (.delivery (some d))
    · obtain ⟨d, hreply⟩ := hgranted
      obtain ⟨⟨d₀, hd₀, hclaimable, rfl⟩, hmem, hrows⟩ := Database.serve_claim hreply
      have hreply' : sys.reply s (.claimSCMDelivery token (cfg w).workerID (cfg w).lease) = _ :=
        hreply
      rw [hreply'] at h
      cases h
      exact .inr ⟨d₀, hd₀, hclaimable, hreply, by simp, hmem, hrows⟩
    · have hsame := unclaimed_rows (not_exists.1 hgranted)
      have hnone : sys' = { sys.serve s (claimCall (cfg w) token) with
          tokens := token :: sys.tokens } := by
        split at h
        · next d hd => exact absurd ⟨d, hd⟩ hgranted
        · exact (Option.some.inj h).symm
      rw [hnone]
      exact .inl ⟨hsame, hidle, not_exists.1 hgranted⟩
  · cases h

/-- A call that is no claim counts no attempt. -/
theorem attemptCount_of_deliveryStep {now : Time} {call : Call}
    (h : DeliveryStep now call d d') : d'.attemptCount = d.attemptCount ∨
      ∃ token worker lease, call = .claimSCMDelivery token worker lease := by
  cases h with
  | claim token worker lease => exact .inr ⟨token, worker, lease, rfl⟩
  | _ => exact .inl rfl

/-- A step that is no claim counts no attempt. -/
theorem Moves.attemptCount (h : Moves cfg sys act d d')
    (hact : ¬ ∃ w token, act = .work w (.claim token)) : d'.attemptCount = d.attemptCount := by
  rcases h with rfl | ⟨call, hmakes, hstep⟩
  · rfl
  · rcases attemptCount_of_deliveryStep hstep with hsame | ⟨token, worker, lease, rfl⟩
    · exact hsame
    · grind [hmakes.claimSCMDelivery]

theorem claims_iff {id : Uuid} {sys₀ : System} : claims id ⟨sys₀, act, sys⟩ = true ↔
    ∃ w c, act = .work w (.claim c.token) ∧ sys.worker w = .lookup c ∧ c.delivery.id = id := by
  constructor
  · grind [claims]
  · grind [claims]

/-- Two rows with one id are one row. -/
theorem row_unique {db : Database} (hd : d ∈ db.deliveries) (hd' : d' ∈ db.deliveries)
    (hid : d'.id = d.id) : d' = d :=
  List.inj_on_of_nodup_map db.valid.deliveries_key hd' hd hid

/-- Only a delivery that is there is claimed. -/
theorem claims_row {id : Uuid} (h : step cfg s sys act = some sys')
    (hclaims : claims id ⟨sys, act, sys'⟩ = true) : ∃ d ∈ sys.db.deliveries, d.id = id := by
  obtain ⟨w, c, rfl, hphase, rfl⟩ := claims_iff.1 hclaims
  rcases claim_cases h with ⟨-, hidle, -⟩ | ⟨d, hd, -, -, hlookup, -⟩
  · rw [hidle] at hphase
    cases hphase
  · rw [hlookup] at hphase
    exact ⟨d, hd, congrArg (fun c : Claim => c.delivery.id) (Phase.lookup.inj hphase)⟩

/-- **One step counts an attempt exactly when it claims the delivery.** -/
theorem step_attempts (h : step cfg s sys act = some sys') (hd : d ∈ sys.db.deliveries)
    (hd' : d' ∈ sys'.db.deliveries) (hid : d'.id = d.id) :
    d'.attemptCount = d.attemptCount + if claims d.id ⟨sys, act, sys'⟩ then 1 else 0 := by
  by_cases hact : ∃ w token, act = .work w (.claim token)
  · obtain ⟨w, token, rfl⟩ := hact
    rcases claim_cases h with ⟨hrows, hidle, -⟩ | ⟨d₀, hd₀, -, -, hlookup, hclaimed, hrows⟩
    · rw [hrows] at hd'
      simp [row_unique hd hd' hid, claims, hidle]
    · by_cases hsame : d₀.id = d.id
      · obtain rfl := row_unique hd hd₀ hsame
        obtain rfl := row_unique hclaimed hd' hid
        simp [claims, hlookup, Delivery.claimed]
      · rcases hrows d' hd' with rfl | hold
        · exact absurd hid hsame
        · have hother : claims d.id ⟨sys, .work w (.claim token), sys'⟩ = false := by
            simpa [claims, hlookup, Delivery.claimed] using hsame
          simp [row_unique hd hold hid, hother]
  · obtain ⟨d'', hd'', hmoves⟩ := step_delivery_after h hd
    obtain rfl := row_unique hd'' hd' (hid.trans hmoves.static.1.symm)
    have hother : claims d.id ⟨sys, act, sys'⟩ ≠ true := by
      intro hclaims
      obtain ⟨w, c, hclaim, -⟩ := claims_iff.1 hclaims
      exact hact ⟨w, c.token, hclaim⟩
    rw [hmoves.attemptCount hact, if_neg hother]
    rfl

/-- A delivery is inserted with no attempts. -/
theorem Makes.inserted_attempts {input : Delivery}
    (h : Makes cfg sys act (.createSCMDelivery input)) : input.inserted.attemptCount = 0 := by
  cases h with
  | webhook hook_ok => exact (githubWebhook_ok hook_ok).2.1
  | other elsewhere => cases elsewhere

/-- A delivery that waits for an attempt has one left. -/
structure System.Budgeted (limit : Nat) (sys : System) : Prop where
  pending : ∀ d ∈ sys.db.deliveries, d.status = .pending → d.attemptCount = 0
  failed : ∀ d ∈ sys.db.deliveries, d.status = .failed → d.nextAttemptAt.isSome = true →
    d.attemptCount < limit

/-- A step that leaves a delivery `PENDING` has not touched it. -/
theorem Moves.pending (h : Moves cfg sys act d d') (hstatus : d'.status = .pending) : d' = d := by
  rcases h with rfl | ⟨call, -, hstep⟩
  · rfl
  · cases hstep with
    | same => rfl
    | renew lease hclaim =>
      have hprocessing := (Delivery.claimedWith_iff.1 hclaim).1
      rw [show d.status = .pending from hstatus] at hprocessing
      cases hprocessing
    | @complete _ _ status hcompleted _ =>
      obtain rfl : status = .pending := hstatus
      simp at hcompleted
    | _ => cases hstatus

/-- A worker grants another attempt only while there is one. -/
theorem Config.retryAt_left {config : Config} {now : Time} {e : ProcessingError}
    (h : (config.retryAt now d e).isSome = true) : d.attemptCount < config.maxAttempts := by
  unfold Config.retryAt at h
  split_ifs at h with hleft
  · exact hleft.2
  · cases h

/-- Every step keeps the budget of attempts. -/
theorem System.Budgeted.step (hbudget : sys.Budgeted limit) (hsys : sys.Sound)
    (hlimit : ∀ w, (cfg w).maxAttempts = limit) (h : ScmWorker.step cfg s sys act = some sys') :
    sys'.Budgeted limit := by
  constructor
  · intro d' hd' hstatus
    rcases step_delivery_before h hd' with ⟨d, hd, hmoves⟩ | ⟨input, hmakes, rfl⟩
    · grind [hmoves.pending, hbudget.pending]
    · exact hmakes.inserted_attempts
  · intro d' hd' hstatus hnext
    rcases step_delivery_before h hd' with
      ⟨d, hd, rfl | ⟨call, hmakes, hstep⟩⟩ | ⟨input, hmakes, rfl⟩
    · exact hbudget.failed d' hd hstatus hnext
    · rcases hstep.failed hstatus with rfl | ⟨token, retryAt, message, rfl, htoken, rfl⟩
      · exact hbudget.failed d' hd hstatus hnext
      · obtain ⟨w, c, e, hphase, rfl, rfl⟩ := hmakes.failSCMDelivery
        have hknows : sys.Knows c := by
          have hok := hsys.phases w
          rwa [hphase] at hok
        rw [← hlimit w]
        exact (hknows.attempts d hd htoken).trans_lt (Config.retryAt_left hnext)
    · grind [hmakes.inserted_status]

theorem Reaches.budgeted (hlimit : ∀ w, (cfg w).maxAttempts = limit)
    (h : Reaches cfg s tr sys) : sys.Budgeted limit := by
  induction h with
  | nil =>
    constructor <;>
    · intro d hd
      cases hd
  | snoc run hstep ih => exact ih.step (Reaches.sound run) hlimit hstep

/-- The delivery has been tried as often as it may: it is being processed, or it is settled. -/
theorem System.Budgeted.spent (h : sys.Budgeted limit) (hpos : 0 < limit)
    (hd : d ∈ sys.db.deliveries) (hspent : limit ≤ d.attemptCount) :
    d.status = .processing ∨ d.settled = true := by
  have hpending := h.pending d hd
  have hfailed := h.failed d hd
  cases hstatus : d.status with
  | pending =>
    have hzero := hpending hstatus
    omega
  | failed =>
    cases hnext : d.nextAttemptAt with
    | none => simp [Delivery.settled, hstatus, hnext]
    | some next => grind
  | processing => exact .inl rfl
  | processed | ignored => simp [Delivery.settled, hstatus]

/-- A settled delivery is not claimed again. -/
theorem unclaimable_of_settled {now : Time} (h : d.settled = true) : ¬ d.claimable now = true := by
  intro hclaimable
  rcases (DeliveryStep.claim 0 "" 0 hclaimable).settled h with hsame | ⟨-, -, input, hcall, -⟩
  · have hcount : d.attemptCount + 1 = d.attemptCount := congrArg Delivery.attemptCount hsame
    omega
  · cases hcall

/-- A delivery under an unexpired claim is not claimed. -/
theorem unclaimable_of_underway {now : Time} (h : underway now d = true) :
    ¬ d.claimable now = true := by
  intro hclaimable
  rw [underway, Bool.and_eq_true, decide_eq_true_eq, Option.any_eq_true] at h
  obtain ⟨hstatus, expires, hexpires, hlt⟩ := h
  rcases Delivery.claimable_iff.1 hclaimable with ⟨hpending, -⟩ | ⟨hfailed, -⟩ |
    ⟨-, expires', hexpires', hle⟩
  · rw [hstatus] at hpending
    cases hpending
  · rw [hstatus] at hfailed
    cases hfailed
  · obtain rfl := Option.some.inj (hexpires.symm.trans hexpires')
    exact absurd (of_decide_eq_true hlt) (not_lt.2 hle)

/-- A worker asks for claims of some duration. -/
theorem Makes.lease_pos {call : Call} {lease : Time} (h : Makes cfg sys act call)
    (hcall : (∃ token worker, call = .claimSCMDelivery token worker lease) ∨
      ∃ id token, call = .renewSCMDeliveryClaim id token lease) : 0 < lease := by
  cases h with
  | @claim w =>
    rcases hcall with ⟨_, _, heq⟩ | ⟨_, _, heq⟩
    · cases heq
      exact (cfg w).lease_pos
    · cases heq
  | @renew w =>
    rcases hcall with ⟨_, _, heq⟩ | ⟨_, _, heq⟩
    · cases heq
    · cases heq
      exact (cfg w).lease_pos
  | other elsewhere => rcases hcall with ⟨_, _, rfl⟩ | ⟨_, _, rfl⟩ <;> cases elsewhere
  | _ => rcases hcall with ⟨_, _, heq⟩ | ⟨_, _, heq⟩ <;> cases heq

/-- A step that leaves a delivery `PROCESSING` has not touched it, or has begun or prolonged an
attempt. -/
theorem Moves.processing (h : Moves cfg sys act d d') (hstatus : d'.status = .processing) :
    d' = d ∨ underway sys.clock d' = true := by
  rcases h with rfl | ⟨call, hmakes, hstep⟩
  · exact .inl rfl
  · cases hstep with
    | same => exact .inl rfl
    | claim token worker lease _ =>
      have hlease := hmakes.lease_pos (.inl ⟨_, _, rfl⟩)
      exact .inr (by simp [underway, Delivery.claimed, hlease])
    | renew lease hclaim =>
      have hlease := hmakes.lease_pos (.inr ⟨_, _, rfl⟩)
      have hprocessing := (Delivery.claimedWith_iff.1 hclaim).1
      exact .inr (by simp [underway, Delivery.renewClaim, hlease, hprocessing])
    | @complete _ _ status hcompleted _ =>
      obtain rfl : status = .processing := hstatus
      simp at hcompleted
    | _ => cases hstatus

/-- **The limit.**  No delivery has been tried too often, and one that has been tried as often as
it may is settled, unless its last attempt is still under way. -/
def System.Within (limit : Nat) (sys : System) : Prop :=
  ∀ d ∈ sys.db.deliveries, d.attemptCount ≤ limit ∧
    (d.attemptCount = limit → underway sys.clock d = false → d.settled = true)

/-- A claim takes a delivery that has an attempt left. -/
theorem System.Within.claimed_left (hwithin : sys.Within limit) (hd : d ∈ sys.db.deliveries)
    (hclaimable : d.claimable sys.clock = true) : d.attemptCount < limit := by
  obtain ⟨hle, hspent⟩ := hwithin d hd
  refine lt_of_le_of_ne hle fun heq => ?_
  cases hunderway : underway sys.clock d with
  | true => exact unclaimable_of_underway hunderway hclaimable
  | false => exact unclaimable_of_settled (hspent heq hunderway) hclaimable

/-- No step tries a delivery too often while the limit holds. -/
theorem System.Within.attempts_le (hwithin : sys.Within limit)
    (h : ScmWorker.step cfg s sys act = some sys') (hd' : d' ∈ sys'.db.deliveries) :
    d'.attemptCount ≤ limit := by
  by_cases hclaim : ∃ w token, act = .work w (.claim token)
  · obtain ⟨w, token, rfl⟩ := hclaim
    rcases claim_cases h with ⟨hrows, -⟩ | ⟨d, hd, hclaimable, -, -, -, hrows⟩
    · rw [hrows] at hd'
      exact (hwithin d' hd').1
    · rcases hrows d' hd' with rfl | hold
      · exact hwithin.claimed_left hd hclaimable
      · exact (hwithin d' hold).1
  · rcases step_delivery_before h hd' with ⟨d, hd, hmoves⟩ | ⟨input, hmakes, rfl⟩
    · rw [hmoves.attemptCount hclaim]
      exact (hwithin d hd).1
    · rw [hmakes.inserted_attempts]
      exact Nat.zero_le _

/-- The limit survives a step that lets no last attempt expire. -/
theorem System.Within.step (hwithin : sys.Within limit) (hbudget : sys'.Budgeted limit)
    (hpos : 0 < limit) (hact : ¬ LetsExpire limit sys act)
    (h : ScmWorker.step cfg s sys act = some sys') : sys'.Within limit := by
  refine fun d' hd' => ⟨hwithin.attempts_le h hd', fun hspent hover => ?_⟩
  rcases hbudget.spent hpos hd' hspent.ge with hprocessing | hsettled
  · rcases step_pass h with hclock | ⟨time, rfl, hclock, hdb⟩
    · -- The clock stands: an attempt at `d'` would be under way, or was over before the step.
      rw [hclock] at hover
      rcases step_delivery_before h hd' with ⟨d, hd, hmoves⟩ | ⟨input, hmakes, rfl⟩
      · rcases hmoves.processing hprocessing with rfl | hunderway
        · exact (hwithin d' hd).2 hspent hover
        · rw [hover] at hunderway
          cases hunderway
      · rw [hmakes.inserted_attempts] at hspent
        omega
    · rw [hdb] at hd'
      rw [hclock] at hover
      cases hunderway : underway sys.clock d' with
      | true => exact absurd ⟨d', hd', hspent, hunderway, hover⟩ hact
      | false => exact (hwithin d' hd').2 hspent hunderway
  · exact hsettled

/-- A last attempt that expires leaves its delivery `PROCESSING` with no attempt left. -/
theorem LetsExpire.exceeds (hact : LetsExpire limit sys act)
    (h : step cfg s sys act = some sys') : ¬ sys'.Within limit := by
  intro hwithin
  cases act with
  | pass time =>
    obtain ⟨d, hd, hspent, hunderway, hover⟩ := hact
    cases h
    have hsettled := (hwithin d hd).2 hspent hover
    grind [underway, Delivery.settled]
  | _ => cases hact

/-- **`attempt_count` counts the claims.** -/
theorem Reaches.attempts_counted (h : Reaches cfg s tr sys) :
    (∀ d ∈ sys.db.deliveries, tr.countP (claims d.id) = d.attemptCount) ∧
      ∀ id, (∀ d ∈ sys.db.deliveries, d.id ≠ id) → tr.countP (claims id) = 0 := by
  induction h with
  | nil =>
    refine ⟨fun d hd => ?_, fun _ _ => rfl⟩
    cases hd
  | @snoc tr sys sys' act run hstep ih =>
    obtain ⟨hcounted, habsent⟩ := ih
    have hnew : ∀ id, (∀ d ∈ sys.db.deliveries, d.id ≠ id) →
        List.countP (claims id) (tr ++ [⟨sys, act, sys'⟩]) = 0 := by
      intro id hnone
      have hother : ¬ claims id ⟨sys, act, sys'⟩ = true := by
        intro hclaims
        obtain ⟨d, hd, hid⟩ := claims_row hstep hclaims
        exact hnone d hd hid
      rw [List.countP_append, habsent id hnone, List.countP_singleton, if_neg hother]
    refine ⟨fun d' hd' => ?_, fun id hnone => hnew id fun d hd hid => ?_⟩
    · by_cases hold : ∃ d ∈ sys.db.deliveries, d.id = d'.id
      · obtain ⟨d, hd, hid⟩ := hold
        rw [step_attempts hstep hd hd' hid.symm, List.countP_append, List.countP_singleton,
          ← hid, hcounted d hd]
      · rw [hnew d'.id fun d hd hid => hold ⟨d, hd, hid⟩]
        rcases step_delivery_before hstep hd' with ⟨d, hd, hmoves⟩ | ⟨input, hmakes, rfl⟩
        · exact absurd ⟨d, hd, hmoves.static.1.symm⟩ hold
        · exact hmakes.inserted_attempts.symm
    · obtain ⟨d', hd', hmoves⟩ := step_delivery_after hstep hd
      exact hnone d' hd' (hmoves.static.1.trans hid)

/-- **When the attempts are bounded.**  In every run `attempt_count` is the number of claims.  A
delivery is never tried more often than the limit, and is `PROCESSED`, `IGNORED` or `FAILED`
without a next attempt once its last attempt is over, exactly when no last attempt is left to
expire without a report. -/
theorem attempts_bounded_iff (hlimit : ∀ w, (cfg w).maxAttempts = limit)
    (h : Reaches cfg s tr sys) :
    (∀ d ∈ sys.db.deliveries, tr.countP (claims d.id) = d.attemptCount) ∧
      ((∀ st ∈ tr, ∀ d ∈ st.after.db.deliveries, d.attemptCount ≤ limit ∧
          (d.attemptCount = limit → underway st.after.clock d = false → d.settled = true)) ↔
        ∀ st ∈ tr, ¬ LetsExpire limit st.before st.act) := by
  have hpos : 0 < limit := by
    rw [← hlimit 0]
    exact (cfg 0).attempts_pos
  refine ⟨(Reaches.attempts_counted h).1, ?_⟩
  refine Trace.exact (fun _ => True) (System.Within limit)
    (fun sys act => ¬ LetsExpire limit sys act) ?_ ?_ ?_ h fun _ _ => trivial
  · intro d hd
    cases hd
  · intro pre sys act sys' hpre _ _ hwithin hact hstep
    exact hwithin.step (Reaches.budgeted hlimit (hpre.snoc hstep)) hpos hact hstep
  · intro pre sys act sys' _ _ _ _ hact hstep
    exact LetsExpire.exceeds (not_not.1 hact) hstep

namespace Sample

/-- The worker claims the delivery, dies, and its claim expires. -/
def abandon (token : Uuid) : List Action :=
  [.work 0 (.claim token), .work 0 .crash, .pass 10]

/-- Six workers in a row die inside one delivery. -/
def abandoned : List Action :=
  [.other (.createSCMRepository repository), .webhook (push Postgres.Sample.digest) 30 true] ++
    [100, 101, 102, 103, 104, 105].flatMap abandon

theorem abandoned_run : ∃ tr sys, Reaches (fun _ => config) Postgres.Sample.settings tr sys ∧
    ∃ d ∈ sys.db.deliveries, d.status = .processing ∧ d.attemptCount = 6 := by
  have hrun : (abandoned.foldlM (step (fun _ => config) Postgres.Sample.settings) {}).map
      (fun sys => sys.db.deliveries.map fun d => (d.status, d.attemptCount)) =
      some [(.processing, 6)] := by decide +kernel
  obtain ⟨tr, sys, htr, -, hrows⟩ := Trace.of_foldlM_map hrun
  have hmem : (DeliveryStatus.processing, 6) ∈
      sys.db.deliveries.map fun d => (d.status, d.attemptCount) := by simp [hrows]
  grind

end Sample

/-- The fifth of these attempts is left to expire, and the delivery is claimed a sixth time. -/
theorem abandoned_left_to_expire : ∃ tr sys,
    Reaches (fun _ => Sample.config) Postgres.Sample.settings tr sys ∧
      (∃ d ∈ sys.db.deliveries, tr.countP (claims d.id) = 6) ∧
      ∃ st ∈ tr, LetsExpire 5 st.before st.act := by
  obtain ⟨tr, sys, htr, d, hd, -, hattempts⟩ := Sample.abandoned_run
  obtain ⟨hcounted, hexact⟩ := attempts_bounded_iff (fun _ => rfl) htr
  refine ⟨tr, sys, htr, ⟨d, hd, (hcounted d hd).trans hattempts⟩, ?_⟩
  by_contra hnone
  have hguard : ∀ st ∈ tr, ¬ LetsExpire 5 st.before st.act :=
    fun st hst hact => hnone ⟨st, hst, hact⟩
  rcases htr.final_after with rfl | ⟨st, hst, rfl⟩
  · cases hd
  · have hbound : d.attemptCount ≤ 5 := (hexact.2 hguard st hst d hd).1
    omega

/-- **The limit on the attempts does not hold**: a claim that expires leads to another. -/
theorem attempts_unbounded : ¬ ∀ (cfg : Nat → Config) (s : Settings) (limit : Nat)
    (tr : List (Step System Action)) (sys : System), (∀ w, (cfg w).maxAttempts = limit) →
    Reaches cfg s tr sys → ∀ d ∈ sys.db.deliveries,
      tr.countP (claims d.id) ≤ limit ∧ d.attemptCount ≤ limit := by
  intro hall
  obtain ⟨tr, sys, htr, d, hd, -, hattempts⟩ := Sample.abandoned_run
  have hbound := (hall _ _ 5 tr sys (fun _ => rfl) htr d hd).2
  omega

end ScmWorker
