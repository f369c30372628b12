import ForgeCI.System

/-!
# Deliveries and their triggers

What the calls of the store do to the rows of `scm_deliveries` and
`scm_run_triggers`, stated once.
-/

namespace Postgres

open Traces

/-- The row a claim leaves. -/
def Delivery.claimed (now : Time) (token : Uuid) (worker : String) (lease : Time)
    (d : Delivery) : Delivery :=
  { d with
    status := .processing
    attemptCount := d.attemptCount + 1
    claimToken := some token
    claimedBy := some worker
    claimExpiresAt := some (now + lease)
    nextAttemptAt := none }

/-- What a call does to one delivery. -/
inductive DeliveryStep (now : Time) : Call → Delivery → Delivery → Prop
  | same (call : Call) (d : Delivery) : DeliveryStep now call d d
  | claim {d : Delivery} (token : Uuid) (worker : String) (lease : Time)
      (hclaimable : d.claimable now = true) :
      DeliveryStep now (.claimSCMDelivery token worker lease) d (d.claimed now token worker lease)
  | renew {d : Delivery} {token : Uuid} (lease : Time) (hclaim : d.claimedWith token now = true) :
      DeliveryStep now (.renewSCMDeliveryClaim d.id token lease) d (d.renewClaim (now + lease))
  | complete {d : Delivery} {token : Uuid} {status : DeliveryStatus}
      (hstatus : status = .processed ∨ status = .ignored)
      (hclaim : d.claimedWith token now = true) :
      DeliveryStep now (.completeSCMDelivery d.id token status) d (d.complete status now)
  | fail {d : Delivery} {token : Uuid} (retryAt : Option Time) (message : String)
      (hclaim : d.claimedWith token now = true) :
      DeliveryStep now (.failSCMDelivery d.id token retryAt message) d (d.fail retryAt message)
  | supersede {d input : Delivery} (hsupersedes : input.supersedes = true)
      (hovertakes : input.overtakes d = true) :
      DeliveryStep now (.createSCMDelivery input) d (d.ignore now)

variable {s : Settings} {now : Time} {t t' : Rows} {call : Call} {d d' : Delivery}
variable {db db' : Database} {q : Request} {token : Uuid}
  {input : Delivery} {id token : Uuid}

theorem Delivery.claimedWith_iff : d.claimedWith token now = true ↔
    d.status = .processing ∧ d.claimToken = some token ∧
      ∃ expires, d.claimExpiresAt = some expires ∧ now < expires := by
  simp [claimedWith, Option.any_eq_true, and_assoc]

/-- A claim that has not expired had not expired before. -/
theorem Delivery.claimedWith_earlier {later : Time}
    (h : d.claimedWith token later = true) (hle : now ≤ later) :
    d.claimedWith token now = true := by
  grind [hle.trans_lt, claimedWith_iff]

theorem Delivery.claimable_iff : d.claimable now = true ↔
    (d.status = .pending ∧ ∀ next, d.nextAttemptAt = some next → next ≤ now) ∨
      (d.status = .failed ∧ ∃ next, d.nextAttemptAt = some next ∧ next ≤ now) ∨
      (d.status = .processing ∧ ∃ expires, d.claimExpiresAt = some expires ∧ expires ≤ now) := by
  simp [claimable, Option.any_eq_true, Option.all_eq_true, or_assoc]

theorem Delivery.overtakes_iff : input.overtakes d = true ↔
    d.repositoryID = input.repositoryID ∧ d.eventType = "pull_request" ∧
      d.pullRequestNumber = input.pullRequestNumber ∧ d.id ≠ input.id ∧
      (d.status = .pending ∨ d.status = .processing ∨ d.status = .failed) ∧
      (input.action = "closed" ∨ d.commitSHA ≠ some input.commit) := by
  simp [overtakes, and_assoc, or_assoc]

theorem forall₂_deliveryStep_of_eq {l l' : List Delivery} (h : l' = l) :
    List.Forall₂ (DeliveryStep now call) l l' := by
  subst h
  exact List.forall₂_same.2 fun d _ => .same _ d

/-- A call under a claim rewrites the delivery that is under it. -/
theorem updateClaimed_deliveries (hkey : (t.deliveries.map Delivery.id).Nodup)
    {f : Delivery → Delivery} (h : updateClaimed now id token f t = .ok t')
    (hf : ∀ d, (f d).id = d.id)
    (hstep : ∀ d, d.id = id → d.claimedWith token now = true → DeliveryStep now call d (f d)) :
    List.Forall₂ (DeliveryStep now call) t.deliveries t'.deliveries := by
  unfold updateClaimed at h
  split at h
  · cases h
  · rename_i d hd
    split_ifs at h with hclaim
    obtain ⟨hmem, hid⟩ := Table.row?_some hd
    rw [← Except.ok.inj h]
    exact Table.forall₂_replace hkey hmem (hf d) (hstep d hid hclaim) fun a _ => .same _ a

theorem claimSCMDelivery_deliveries {worker : String} {lease : Time} {claimed : Option Delivery}
    (h : claimSCMDelivery now token worker lease t = .ok (t', claimed)) :
    (t' = t ∧ claimed = none) ∨ ∃ d ∈ t.deliveries, d.claimable now = true ∧
      t'.deliveries = Table.replace Delivery.id (d.claimed now token worker lease) t.deliveries ∧
      claimed = some (d.claimed now token worker lease) := by
  unfold claimSCMDelivery at h
  split at h
  · cases h
  split at h
  · grind
  · rename_i d hd
    cases h
    have hmem := (List.perm_insertionSort _ _).mem_iff.1 (List.mem_of_mem_head? hd)
    obtain ⟨hmem, hclaimable⟩ := List.mem_filter.1 hmem
    exact .inr ⟨d, hmem, hclaimable, rfl, rfl⟩

/-- A new delivery is added behind the deliveries it supersedes. -/
theorem createSCMDelivery_deliveries (h : createSCMDelivery now input t = .ok (t', d)) :
    (t' = t ∧ d ∈ t.deliveries ∧ d.provider = input.provider ∧ d.deliveryID = input.deliveryID ∧
        d.payloadSHA256 = input.payloadSHA256) ∨
      ∃ old, List.Forall₂ (DeliveryStep now (.createSCMDelivery input)) t.deliveries old ∧
        t'.deliveries = old ++ [input.inserted] := by
  unfold createSCMDelivery at h
  split at h
  · cases h
  split at h
  · rename_i stored hstored
    grind
  · simp only at h
    split_ifs at h with hsupersedes
    · cases h
      refine .inr ⟨Table.updateWhere input.overtakes (Delivery.ignore now) t.deliveries, ?_, ?_⟩
      · refine Table.forall₂_updateWhere fun d _ => ?_
        by_cases hd : input.overtakes d = true
        · rw [if_pos hd]
          exact .supersede hsupersedes hd
        · rw [if_neg hd]
          exact .same _ d
      · grind [Delivery.overtakes, Delivery.inserted, Table.updateWhere]
    · cases h
      exact .inr ⟨t.deliveries, forall₂_deliveryStep_of_eq rfl, rfl⟩

/-- What a delivery that supersedes does: it ignores the deliveries and cancels the runs
it supersedes, or it is a replay. -/
theorem createSCMDelivery_superseding (hsupersedes : input.supersedes = true)
    (h : createSCMDelivery now input t = .ok (t', d)) :
    t' = t ∨ (t'.triggers = t.triggers ∧
      t'.runs = Table.updateWhere (t.superseded input) (Run.supersede now) t.runs ∧
      t'.deliveries = Table.updateWhere input.overtakes (Delivery.ignore now)
        (t.deliveries ++ [input.inserted])) := by
  unfold createSCMDelivery at h
  split at h
  · cases h
  split at h
  · grind
  · cases h
    exact .inr ⟨rfl, rfl, rfl⟩

variable {reply : Reply}
  {trigger : RunTrigger}

/-- **What a call does to the deliveries.** -/
theorem exec_deliveries (hkey : (t.deliveries.map Delivery.id).Nodup)
    (h : exec s now t call = .ok (t', reply)) : (∃ input old, call = .createSCMDelivery input ∧
        List.Forall₂ (DeliveryStep now call) t.deliveries old ∧
        t'.deliveries = old ++ [input.inserted]) ∨
      List.Forall₂ (DeliveryStep now call) t.deliveries t'.deliveries := by
  cases call with
  | createSCMDelivery input =>
    obtain ⟨⟨t₁, d⟩, hok, ⟨⟩⟩ := map_ok h
    rcases createSCMDelivery_deliveries hok with ⟨rfl, -⟩ | ⟨old, hold, hrows⟩
    · exact .inr (forall₂_deliveryStep_of_eq rfl)
    · exact .inl ⟨input, old, rfl, hold, hrows⟩
  | claimSCMDelivery token worker lease =>
    obtain ⟨⟨t₁, claimed⟩, hok, ⟨⟩⟩ := map_ok h
    rcases claimSCMDelivery_deliveries hok with ⟨rfl, -⟩ | ⟨d, hd, hclaimable, hrows, -⟩
    · exact .inr (forall₂_deliveryStep_of_eq rfl)
    · rw [hrows]
      exact .inr (Table.forall₂_replace hkey hd rfl (.claim token worker lease hclaimable)
        fun a _ => .same _ a)
  | renewSCMDeliveryClaim id token lease =>
    have hok := (map_done h).1
    unfold renewSCMDeliveryClaim at hok
    split_ifs at hok
    refine .inr (updateClaimed_deliveries hkey hok (fun _ => rfl) ?_)
    rintro d rfl hclaim
    exact .renew lease hclaim
  | completeSCMDelivery id token status =>
    have hok := (map_done h).1
    unfold completeSCMDelivery at hok
    split_ifs at hok with hstatus
    refine .inr (updateClaimed_deliveries hkey hok (fun _ => rfl) ?_)
    rintro d rfl hclaim
    exact .complete (by tauto) hclaim
  | failSCMDelivery id token retryAt message =>
    refine .inr (updateClaimed_deliveries hkey (map_done h).1 (fun _ => rfl) ?_)
    rintro d rfl hclaim
    exact .fail retryAt message hclaim
  | createSCMRun token input trigger =>
    obtain ⟨-, t₁, hcreate, rfl⟩ := createSCMRun_ok (map_done h).1
    obtain ⟨_, _, -, rfl⟩ := createRun_ok hcreate
    exact .inr (forall₂_deliveryStep_of_eq rfl)
  | _ => exact .inr (forall₂_deliveryStep_of_eq ((exec_frame h).deliveries rfl))

/-- `CreateSCMRun` succeeds only under a claim of the delivery. -/
theorem createSCMRun_claimed {input : CreateRun}
    (h : createSCMRun now token input trigger t = .ok t') :
    ∃ d ∈ t.deliveries, d.id = trigger.deliveryID ∧ d.claimedWith token now = true := by
  unfold createSCMRun at h
  split at h
  · cases h
  split at h
  · cases h
  rename_i hclaim
  simp only [Option.all_eq_true, not_forall] at hclaim
  grind [Table.row?_some]

theorem updateClaimed_claimed {f : Delivery → Delivery}
    (h : updateClaimed now id token f t = .ok t') :
    ∃ d ∈ t.deliveries, d.id = id ∧ d.claimedWith token now = true := by
  grind [updateClaimed, Table.row?_some]

/-- The delivery and the claim token a call presents. -/
def Call.presents : Call → Option (Uuid × Uuid)
  | .renewSCMDeliveryClaim id token _ | .completeSCMDelivery id token _ => some (id, token)
  | .failSCMDelivery id token _ _ => some (id, token)
  | .createSCMRun token _ trigger => some (trigger.deliveryID, token)
  | _ => none

/-- A call succeeds only under the claim it presents. -/
theorem exec_presents (hcall : call.presents = some (id, token))
    (h : exec s now t call = .ok (t', reply)) :
    ∃ d ∈ t.deliveries, d.id = id ∧ d.claimedWith token now = true := by
  cases call with
  | renewSCMDeliveryClaim id' token' lease =>
    cases hcall
    have hok := (map_done h).1
    unfold renewSCMDeliveryClaim at hok
    split_ifs at hok
    exact updateClaimed_claimed hok
  | completeSCMDelivery id' token' status =>
    cases hcall
    have hok := (map_done h).1
    unfold completeSCMDelivery at hok
    split_ifs at hok
    exact updateClaimed_claimed hok
  | failSCMDelivery id' token' retryAt message =>
    cases hcall
    exact updateClaimed_claimed (map_done h).1
  | createSCMRun token' input trigger =>
    cases hcall
    exact createSCMRun_claimed (map_done h).1
  | _ => cases hcall

/-- **What a request does to the deliveries.** -/
theorem Served.deliveries (h : Served s db q db') :
    (∃ input old, q.call = .createSCMDelivery input ∧
        List.Forall₂ (DeliveryStep q.now q.call) db.deliveries old ∧
        db'.deliveries = old ++ [input.inserted]) ∨
      List.Forall₂ (DeliveryStep q.now q.call) db.deliveries db'.deliveries := by
  subst h
  rcases db.serve_cases s q with ⟨t', reply, hexec, hrows, -⟩ | ⟨hsame, -⟩
  · rw [hrows]
    exact exec_deliveries db.valid.deliveries_key hexec
  · rw [hsame]
    exact .inr (forall₂_deliveryStep_of_eq rfl)

theorem Served.delivery_after (h : Served s db q db') (hd : d ∈ db.deliveries) :
    ∃ d' ∈ db'.deliveries, DeliveryStep q.now q.call d d' := by
  grind [h.deliveries, Table.exists_new]

theorem Served.delivery_before (h : Served s db q db') (hd : d' ∈ db'.deliveries) :
    (∃ d ∈ db.deliveries, DeliveryStep q.now q.call d d') ∨
      ∃ input, q.call = .createSCMDelivery input ∧ d' = input.inserted := by
  grind [h.deliveries, Table.exists_old]

/-- **A claim fences the calls under it**: without the claim a request changes
nothing. -/
theorem Served.presents (h : Served s db q db') (hcall : q.call.presents = some (id, token)) :
    db' = db ∨ ∃ d ∈ db.deliveries, d.id = id ∧ d.claimedWith token q.now = true := by
  subst h
  rcases db.serve_cases s q with ⟨t', reply, hexec, -, -⟩ | ⟨hsame, -⟩
  · exact .inr (exec_presents hcall hexec)
  · exact .inl hsame

/-- `CreateSCMRun` adds a run and its trigger, or nothing. -/
theorem Served.createSCMRun_cases {input : CreateRun}
    (h : Served s db ⟨now, .createSCMRun token input trigger⟩ db') :
    db' = db ∨ (trigger.runID = input.id ∧ db'.triggers = db.triggers ++ [trigger] ∧
      ∃ snapshot, db'.runs = db.runs ++ [input.row now snapshot]) := by
  subst h
  rcases db.serve_cases s ⟨now, .createSCMRun token input trigger⟩ with
    ⟨t', reply, hexec, hrows, -⟩ | ⟨hsame, -⟩
  · rw [hrows]
    obtain ⟨hid, t₁, hcreate, rfl⟩ := createSCMRun_ok (map_done hexec).1
    obtain ⟨snapshot, _, -, rfl⟩ := createRun_ok hcreate
    exact .inr ⟨hid, rfl, snapshot, rfl⟩
  · exact .inl hsame

/-- A claim that is granted is of a row that was claimable, and the other rows stay. -/
theorem Database.serve_claim {worker : String} {lease : Time}
    (h : (db.serve s ⟨now, .claimSCMDelivery token worker lease⟩).2 = .ok (.delivery (some d))) :
    (∃ d₀ ∈ db.deliveries, d₀.claimable now = true ∧ d = d₀.claimed now token worker lease) ∧
      d ∈ (db.serve s ⟨now, .claimSCMDelivery token worker lease⟩).1.deliveries ∧
      ∀ d' ∈ (db.serve s ⟨now, .claimSCMDelivery token worker lease⟩).1.deliveries,
        d' = d ∨ d' ∈ db.deliveries := by
  obtain ⟨⟨t, claimed⟩, hok, heq⟩ := map_ok (Database.serve_ok h)
  obtain ⟨hrows, hreply⟩ := Prod.mk.inj heq
  obtain rfl : claimed = some d := Reply.delivery.inj hreply
  rcases claimSCMDelivery_deliveries hok with ⟨-, hnone⟩ | ⟨d₀, hd₀, hclaimable, hdeliveries, hd⟩
  · cases hnone
  · cases hd
    have hrows : (db.serve s ⟨now, .claimSCMDelivery token worker lease⟩).1.deliveries =
        Table.replace Delivery.id (d₀.claimed now token worker lease) db.deliveries := by
      rw [← hrows]
      exact hdeliveries
    rw [hrows]
    obtain ⟨pre, post, hsplit, hreplace⟩ := Table.replace_split db.valid.deliveries_key hd₀
      (show (d₀.claimed now token worker lease).id = d₀.id from rfl)
    grind

/-- A run that is created has its trigger. -/
theorem Database.serve_createSCMRun {input : CreateRun}
    (h : (db.serve s ⟨now, .createSCMRun token input trigger⟩).2 = .ok reply) :
    trigger ∈ (db.serve s ⟨now, .createSCMRun token input trigger⟩).1.triggers := by
  obtain ⟨-, t₁, -, hrows⟩ := createSCMRun_ok (map_done (Database.serve_ok h)).1
  grind

theorem Served.superseding (hsupersedes : input.supersedes = true)
    (h : Served s db ⟨now, .createSCMDelivery input⟩ db') :
    db' = db ∨ (db'.triggers = db.triggers ∧
      db'.runs = Table.updateWhere (db.superseded input) (Run.supersede now) db.runs ∧
      db'.deliveries = Table.updateWhere input.overtakes (Delivery.ignore now)
        (db.deliveries ++ [input.inserted])) := by
  subst h
  rcases db.serve_cases s ⟨now, .createSCMDelivery input⟩ with
    ⟨t', reply, hexec, hrows, -⟩ | ⟨hsame, -⟩
  · obtain ⟨⟨t₁, d⟩, hok, ⟨⟩⟩ := map_ok hexec
    rw [hrows]
    exact (createSCMDelivery_superseding hsupersedes hok).imp_left fun hsame =>
      Database.eq_of_rows (hrows.trans hsame)
  · exact .inl hsame

/-- **A replay changes nothing**, and fails when its digest is another one. -/
theorem Served.replay {input stored : Delivery}
    (h : Served s db ⟨now, .createSCMDelivery input⟩ db') (hstored : stored ∈ db.deliveries)
    (hprovider : stored.provider = input.provider)
    (hdelivery : stored.deliveryID = input.deliveryID) :
    db' = db ∧ (stored.payloadSHA256 ≠ input.payloadSHA256 →
      ∃ e, (db.serve s ⟨now, .createSCMDelivery input⟩).2 = .error e) := by
  subst h
  rcases db.serve_cases s ⟨now, .createSCMDelivery input⟩ with
    ⟨t', reply, hexec, hrows, hreply⟩ | ⟨hsame, herror⟩
  · obtain ⟨⟨t₁, d⟩, hok, ⟨⟩⟩ := map_ok hexec
    unfold createSCMDelivery at hok
    split at hok
    · cases hok
    split at hok
    · rename_i found hfound
      have hsame := List.find?_some hfound
      simp only [Bool.and_eq_true, decide_eq_true_eq] at hsame
      have hidentity :
          (found.provider, found.deliveryID) = (stored.provider, stored.deliveryID) := by
        rw [hsame.1, hsame.2, hprovider, hdelivery]
      obtain rfl := List.inj_on_of_nodup_map db.valid.deliveries_identity
        (List.mem_of_find?_eq_some hfound) hstored hidentity
      grind [Database.eq_of_rows]
    · rename_i hnone
      grind
  · exact ⟨hsame, fun _ => herror⟩

/-- The columns of a delivery that are written once. -/
def Delivery.SameStatic (d d' : Delivery) : Prop :=
  d'.id = d.id ∧ d'.provider = d.provider ∧ d'.deliveryID = d.deliveryID ∧
    d'.repositoryID = d.repositoryID ∧ d'.eventType = d.eventType ∧ d'.action = d.action ∧
    d'.commitSHA = d.commitSHA ∧ d'.pullRequestNumber = d.pullRequestNumber ∧
    d'.payloadSHA256 = d.payloadSHA256 ∧ d'.receivedAt = d.receivedAt

theorem Delivery.SameStatic.refl (d : Delivery) : d.SameStatic d :=
  ⟨rfl, rfl, rfl, rfl, rfl, rfl, rfl, rfl, rfl, rfl⟩

theorem Delivery.SameStatic.trans {d'' : Delivery} (h : d.SameStatic d') (h' : d'.SameStatic d'') :
    d.SameStatic d'' := by
  simp only [SameStatic] at h h' ⊢
  grind

/-- The rewriting of a delivery violates no constraint. -/
theorem Rows.Constraints.replaceDelivery (h : t.Constraints) (hd : d ∈ t.deliveries)
    (hstatic : d.SameStatic d') :
    ({ t with deliveries := Table.replace Delivery.id d' t.deliveries } : Rows).Constraints := by
  have hrows : List.Forall₂ Delivery.SameStatic t.deliveries
      (Table.replace Delivery.id d' t.deliveries) :=
    Table.forall₂_replace h.deliveries_key hd hstatic.1 hstatic fun a _ => .refl a
  have hids := Table.map_eq_of_forall₂ (f := Delivery.id) (g := Delivery.id) hrows
    fun _ _ hab => hab.1
  have hidentities := Table.map_eq_of_forall₂ (f := fun d : Delivery => (d.provider, d.deliveryID))
    (g := fun d : Delivery => (d.provider, d.deliveryID)) hrows
    fun _ _ hab => Prod.ext hab.2.1 hab.2.2.1
  refine { h with
    deliveries_key := by rw [hids]; exact h.deliveries_key
    deliveries_identity := by rw [hidentities]; exact h.deliveries_identity
    deliveries_repository := ?_
    triggers_references := by rw [hids]; exact h.triggers_references }
  intro b hb
  obtain ⟨a, ha, hab⟩ := Table.exists_old hrows hb
  rw [hab.2.2.2.1]
  exact h.deliveries_repository a ha

/-- **A failure reported under the claim is recorded.** -/
theorem Database.serve_failSCMDelivery {retryAt : Option Time} {message : String}
    (hd : d ∈ db.deliveries) (hclaim : d.claimedWith token now = true) :
    d.fail retryAt message ∈
      (db.serve s ⟨now, .failSCMDelivery d.id token retryAt message⟩).1.deliveries := by
  have hrow : Table.row? Delivery.id d.id db.deliveries = some d :=
    (Table.row?_eq_some_iff db.valid.deliveries_key).2 ⟨hd, rfl⟩
  have hexec : exec s now db.toRows (.failSCMDelivery d.id token retryAt message) =
      .ok ({ db.toRows with
        deliveries := Table.replace Delivery.id (d.fail retryAt message) db.deliveries },
        .done) := by
    simp [exec, failSCMDelivery, updateClaimed, hrow, hclaim, Except.map]
  have hvalid := db.valid.replaceDelivery hd
    (show d.SameStatic (d.fail retryAt message) from .refl d)
  have hserve : (db.serve s ⟨now, .failSCMDelivery d.id token retryAt message⟩).1.deliveries =
      Table.replace Delivery.id (d.fail retryAt message) db.deliveries := by
    simp only [serve, hexec, commit, dif_pos hvalid]
  rw [hserve]
  exact Table.mem_updateWhere.2 ⟨d, hd, if_pos (by simp [Delivery.fail])⟩

theorem DeliveryStep.static (h : DeliveryStep now call d d') : d.SameStatic d' := by
  cases h <;> exact ⟨rfl, rfl, rfl, rfl, rfl, rfl, rfl, rfl, rfl, rfl⟩

/-- A delivery is under a claim because it was, or because the call has made it. -/
theorem DeliveryStep.claimedWith {later : Time} (h : DeliveryStep now call d d')
    (hclaim : d'.claimedWith token later = true) (hle : now ≤ later) :
    d.claimedWith token now = true ∨
      ∃ worker lease, call = .claimSCMDelivery token worker lease := by
  have htoken := (Delivery.claimedWith_iff.1 hclaim).2.1
  cases h with
  | same => exact .inl (Delivery.claimedWith_earlier hclaim hle)
  | claim token' worker lease hclaimable =>
    cases htoken
    exact .inr ⟨worker, lease, rfl⟩
  | @renew d token' lease hheld =>
    have htoken' := (Delivery.claimedWith_iff.1 hheld).2.1
    obtain rfl := Option.some.inj (htoken'.symm.trans htoken)
    exact .inl hheld
  | _ => cases htoken

/-- A claim that stands after a call stood before it, or the call has made it. -/
theorem DeliveryStep.claimToken (h : DeliveryStep now call d d')
    (htoken : d'.claimToken = some token) :
    (d.claimToken = some token ∧ d'.attemptCount = d.attemptCount) ∨
      ∃ worker lease, call = .claimSCMDelivery token worker lease := by
  cases h with
  | same => exact .inl ⟨htoken, rfl⟩
  | claim token' worker lease hclaimable =>
    cases htoken
    exact .inr ⟨worker, lease, rfl⟩
  | renew lease hclaim => exact .inl ⟨htoken, rfl⟩
  | _ => cases htoken

theorem DeliveryStep.processed (h : DeliveryStep now call d d') (hstatus : d'.status = .processed) :
    d.status = .processed ∨ ∃ token, call = .completeSCMDelivery d.id token .processed := by
  cases h with
  | same | renew lease hclaim => exact .inl hstatus
  | @complete _ token status _ hclaim =>
    obtain rfl : status = .processed := hstatus
    exact .inr ⟨token, rfl⟩
  | _ => cases hstatus

/-- A delivery is `FAILED` because it was, or because the call has failed it. -/
theorem DeliveryStep.failed (h : DeliveryStep now call d d') (hstatus : d'.status = .failed) :
    d' = d ∨ ∃ token retryAt message, call = .failSCMDelivery d.id token retryAt message ∧
      d.claimToken = some token ∧ d' = d.fail retryAt message := by
  cases h with
  | same => exact .inl rfl
  | renew lease hclaim =>
    have hprocessing := (Delivery.claimedWith_iff.1 hclaim).1
    rw [show d.status = .failed from hstatus] at hprocessing
    cases hprocessing
  | @complete _ token status hcompleted _ =>
    obtain rfl : status = .failed := hstatus
    simp at hcompleted
  | @fail _ token retryAt message hclaim =>
    exact .inr ⟨token, retryAt, message, rfl, (Delivery.claimedWith_iff.1 hclaim).2.1, rfl⟩
  | _ => cases hstatus

/-- A delivery in `PROCESSING` has an expiry. -/
theorem DeliveryStep.processing (h : DeliveryStep now call d d')
    (hd : d.status = .processing → d.claimExpiresAt.isSome = true)
    (hstatus : d'.status = .processing) : d'.claimExpiresAt.isSome = true := by
  cases h with
  | same => exact hd hstatus
  | claim token worker lease hclaimable => rfl
  | renew lease hclaim => rfl
  | @complete _ token status hcompleted _ =>
    obtain rfl : status = .processing := hstatus
    simp at hcompleted
  | _ => cases hstatus

/-- `IGNORED`, `PROCESSED`, and `FAILED` without a next attempt. -/
def Delivery.settled (d : Delivery) : Bool :=
  d.status = .ignored || d.status = .processed || (d.status = .failed && d.nextAttemptAt.isNone)

/-- **A settled delivery is never touched again**, except that a `FAILED` one may be
superseded. -/
theorem DeliveryStep.settled (h : DeliveryStep now call d d') (hd : d.settled = true) :
    d' = d ∨ (d.status = .failed ∧ d' = d.ignore now ∧ ∃ input,
      call = .createSCMDelivery input ∧ input.supersedes = true ∧ input.overtakes d = true) := by
  have hd : d.status = .ignored ∨ d.status = .processed ∨
      (d.status = .failed ∧ d.nextAttemptAt = none) := by
    simpa [Delivery.settled, or_assoc] using hd
  cases h with
  | same => exact .inl rfl
  | claim token worker lease hclaimable =>
    rw [Delivery.claimable_iff] at hclaimable
    grind
  | @supersede _ input hsupersedes hovertakes => grind [Delivery.overtakes_iff]
  | renew lease hclaim =>
    rw [Delivery.claimedWith_iff] at hclaim
    grind
  | complete hstatus hclaim =>
    rw [Delivery.claimedWith_iff] at hclaim
    grind
  | fail retryAt message hclaim =>
    rw [Delivery.claimedWith_iff] at hclaim
    grind

end Postgres
