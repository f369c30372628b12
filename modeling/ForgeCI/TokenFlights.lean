import ForgeCI.SourcePreparation

/-!
# Installation tokens

`InstallationToken` of the client of the GitHub API.  Calls for one installation share a request:
the first one makes a flight and asks for a token, the others wait for the flight.  The request
runs under the context of the call that made the flight, and the waiting calls return what it
returns.

The sections under the mutex are single steps; between them any other call may go on, time may
pass and contexts may be cancelled.
-/

namespace GitHub

open Scm Traces

abbrev Time := Nat

/-- A minute, in nanoseconds. -/
def tokenSafetyMargin : Time := 60 * 10 ^ 9

structure Token where
  value : String
  expiresAt : Time
deriving DecidableEq

inductive Reason where
  | text (message : String)
  | signing
  | request
  | transport
  | context
  | api (status : Nat) (transient : Bool)
deriving DecidableEq

/-- An error, and the call whose cancelled context it comes from. -/
structure Failure where
  reason : Reason
  cause : Option Nat
deriving DecidableEq

/-- What the body of a response is read as. -/
inductive Body where
  | interrupted
  | undecodable
  | token (value : String) (expiresAt : Time)

/-- What becomes of a request. -/
inductive Exchange where
  | interrupted
  | failed
  | answered (status : Nat) (body : Body)

/-- The context of the request has been cancelled, and that has ended it. -/
def Exchange.cut : Exchange → Bool
  | .interrupted => true
  | .answered status .interrupted => 200 ≤ status && status ≤ 299
  | _ => false

def invalidResponse : Reason := .text "invalid GitHub token response"

/-- `issue`, from the request on, for the call `w`. -/
def answer (now : Time) (w : Nat) : Exchange → Except Failure Token
  | .interrupted => .error ⟨.context, some w⟩
  | .failed => .error ⟨.transport, none⟩
  | .answered status body =>
      if status < 200 ∨ 299 < status then
        .error ⟨.api status (status = 429 || 500 ≤ status), none⟩
      else match body with
        | .interrupted => .error ⟨invalidResponse, some w⟩
        | .undecodable => .error ⟨invalidResponse, none⟩
        | .token value expiresAt =>
            if value = "" ∨ expiresAt ≤ now then .error ⟨invalidResponse, none⟩
            else .ok ⟨value, expiresAt⟩

/-- Where a call stands.  A flight is known by its number. -/
inductive Phase where
  | idle
  | entering (id : String) (now : Time)
  | waiting (id : String) (f : Nat)
  | signing (id : String) (f : Nat)
  | requesting (id : String) (f : Nat)
  | recording (id : String) (f : Nat) (result : Except Failure Token)
  | returned (result : Except Failure Token)

/-- The client and the calls that use it; `results` are the flights whose channel is closed, and
`made` is the number of flights made so far. -/
structure Client where
  clock : Time := 0
  cancelled : Nat → Bool := fun _ => false
  cache : String → Option Token := fun _ => none
  flights : String → Option Nat := fun _ => none
  results : Nat → Option (Except Failure Token) := fun _ => none
  made : Nat := 0
  phase : Nat → Phase := fun _ => .idle

inductive Action where
  | pass (time : Time)
  | cancel (w : Nat)
  | call (w : Nat) (id : String)
  | enter (w : Nat)
  | sign (w : Nat) (signs requests : Bool)
  | exchange (w : Nat) (e : Exchange)
  | record (w : Nat)
  | receive (w : Nat)
  | giveUp (w : Nat)

/-- The call that goes on. -/
def Action.mover : Action → Option Nat
  | .pass _ | .cancel _ => none
  | .call w _ | .enter w | .sign w _ _ | .exchange w _ | .record w | .receive w | .giveUp w =>
      some w

namespace Client

def goto (w : Nat) (p : Phase) (c : Client) : Client :=
  { c with phase := Function.update c.phase w p }

/-- Make a flight. -/
def launch (w : Nat) (id : String) (c : Client) : Client :=
  ({ c with
    flights := Function.update c.flights id (some c.made)
    made := c.made + 1 } : Client).goto w (.signing id c.made)

/-- Wait for the flight that is there, or make one. -/
def join (w : Nat) (id : String) (c : Client) : Client :=
  match c.flights id with
  | some f => c.goto w (.waiting id f)
  | none => c.launch w id

/-- The first section under the mutex. -/
def enter (w : Nat) (id : String) (now : Time) (c : Client) : Client :=
  match c.cache id with
  | some t =>
      if now + tokenSafetyMargin < t.expiresAt then c.goto w (.returned (.ok t))
      else c.join w id
  | none => c.join w id

/-- The second section under the mutex. -/
def record (w : Nat) (id : String) (f : Nat) (result : Except Failure Token) (c : Client) :
    Client :=
  ({ c with
    cache := match result with
      | .ok t => Function.update c.cache id (some t)
      | .error _ => c.cache
    flights := Function.update c.flights id none
    results := Function.update c.results f (some result) } : Client).goto w (.returned result)

/-- The end of the signing: the request is sent, or something has failed. -/
def signed (id : String) (f : Nat) (signs requests : Bool) : Phase :=
  if signs = false then .recording id f (.error ⟨.signing, none⟩)
  else if requests = false then .recording id f (.error ⟨.request, none⟩)
  else .requesting id f

end Client

def step (c : Client) : Action → Option Client
  | .pass time => some { c with clock := c.clock + time }
  | .cancel w => some { c with cancelled := Function.update c.cancelled w true }
  | .call w id =>
      match c.phase w with
      | .idle =>
          if (parseInt64 id).isNone ∨ id = "0" then
            some (c.goto w (.returned (.error ⟨.text "invalid GitHub installation ID", none⟩)))
          else some (c.goto w (.entering id c.clock))
      | _ => none
  | .enter w =>
      match c.phase w with
      | .entering id now => some (c.enter w id now)
      | _ => none
  | .sign w signs requests =>
      match c.phase w with
      | .signing id f => some (c.goto w (Client.signed id f signs requests))
      | _ => none
  | .exchange w e =>
      match c.phase w with
      | .requesting id f =>
          -- A request is not cut off by a context that has not been cancelled.
          if e.cut = true ∧ c.cancelled w = false then none
          else some (c.goto w (.recording id f (answer c.clock w e)))
      | _ => none
  | .record w =>
      match c.phase w with
      | .recording id f result => some (c.record w id f result)
      | _ => none
  | .receive w =>
      match c.phase w with
      | .waiting _ f => (c.results f).map fun result => c.goto w (.returned result)
      | _ => none
  | .giveUp w =>
      match c.phase w with
      | .waiting _ _ =>
          if c.cancelled w then some (c.goto w (.returned (.error ⟨.context, some w⟩))) else none
      | _ => none

/-- The steps `tr` lead from `c` to `c'`. -/
def Runs (c : Client) (tr : List (Step Client Action)) (c' : Client) : Prop :=
  Trace (fun c a c' => step c a = some c') c tr c'

/-- The steps `tr` lead to `c` from a new client. -/
def Reaches (tr : List (Step Client Action)) (c : Client) : Prop := Runs {} tr c

variable {c c' : Client} {act : Action} {tr pre post : List (Step Client Action)}
variable {st : Step Client Action} {w v f : Nat} {id : String} {result : Except Failure Token}

/-- What a step can do. -/
inductive Stepped (c : Client) : Action → Client → Prop
  | pass (time : Time) : Stepped c (.pass time) { c with clock := c.clock + time }
  | cancel (w : Nat) :
      Stepped c (.cancel w) { c with cancelled := Function.update c.cancelled w true }
  | refused {w : Nat} {id : String} (hphase : c.phase w = .idle) :
      Stepped c (.call w id)
        (c.goto w (.returned (.error ⟨.text "invalid GitHub installation ID", none⟩)))
  | called {w : Nat} {id : String} (hphase : c.phase w = .idle) :
      Stepped c (.call w id) (c.goto w (.entering id c.clock))
  | cached {w : Nat} {id : String} {now : Time} {t : Token}
      (hphase : c.phase w = .entering id now) (hcache : c.cache id = some t)
      (hvalid : now + tokenSafetyMargin < t.expiresAt) :
      Stepped c (.enter w) (c.goto w (.returned (.ok t)))
  | waits {w f : Nat} {id : String} {now : Time} (hphase : c.phase w = .entering id now)
      (hflight : c.flights id = some f) : Stepped c (.enter w) (c.goto w (.waiting id f))
  | starts {w : Nat} {id : String} {now : Time} (hphase : c.phase w = .entering id now)
      (hflight : c.flights id = none) : Stepped c (.enter w) (c.launch w id)
  | signed {w f : Nat} {id : String} {signs requests : Bool} (hphase : c.phase w = .signing id f) :
      Stepped c (.sign w signs requests) (c.goto w (Client.signed id f signs requests))
  | answered {w f : Nat} {id : String} {e : Exchange} (hphase : c.phase w = .requesting id f)
      (hcut : e.cut = true → c.cancelled w = true) :
      Stepped c (.exchange w e) (c.goto w (.recording id f (answer c.clock w e)))
  | recorded {w f : Nat} {id : String} {result : Except Failure Token}
      (hphase : c.phase w = .recording id f result) :
      Stepped c (.record w) (c.record w id f result)
  | received {w f : Nat} {id : String} {result : Except Failure Token}
      (hphase : c.phase w = .waiting id f) (hresult : c.results f = some result) :
      Stepped c (.receive w) (c.goto w (.returned result))
  | gaveUp {w f : Nat} {id : String} (hphase : c.phase w = .waiting id f)
      (hcancelled : c.cancelled w = true) :
      Stepped c (.giveUp w) (c.goto w (.returned (.error ⟨.context, some w⟩)))

theorem stepped_join {now : Time} (hphase : c.phase w = .entering id now) :
    Stepped c (.enter w) (c.join w id) := by
  unfold Client.join
  split
  · next f hflight => exact .waits hphase hflight
  · next hflight => exact .starts hphase hflight

theorem step_stepped (h : step c act = some c') : Stepped c act c' := by
  cases act with
  | pass time =>
    cases h
    exact .pass time
  | cancel w =>
    cases h
    exact .cancel w
  | call w id =>
    simp only [step] at h
    split at h
    · rename_i hphase
      split_ifs at h
      · cases h
        exact .refused hphase
      · cases h
        exact .called hphase
    · cases h
  | enter w =>
    simp only [step] at h
    split at h
    · rename_i id now hphase
      cases h
      unfold Client.enter
      split
      · rename_i t hcache
        split_ifs with hvalid
        · exact .cached hphase hcache hvalid
        · exact stepped_join hphase
      · exact stepped_join hphase
    · cases h
  | sign w signs requests =>
    simp only [step] at h
    split at h
    · rename_i id f hphase
      cases h
      exact .signed hphase
    · cases h
  | exchange w e =>
    simp only [step] at h
    split at h
    · rename_i id f hphase
      split_ifs at h with hcut
      cases h
      exact .answered hphase fun he => by simpa [he] using hcut
    · cases h
  | record w =>
    simp only [step] at h
    split at h
    · rename_i id f result hphase
      cases h
      exact .recorded hphase
    · cases h
  | receive w =>
    simp only [step] at h
    split at h
    · rename_i id f hphase
      obtain ⟨result, hresult, rfl⟩ := Option.map_eq_some_iff.1 h
      exact .received hphase hresult
    · cases h
  | giveUp w =>
    simp only [step] at h
    split at h
    · rename_i id f hphase
      split_ifs at h with hcancelled
      cases h
      exact .gaveUp hphase hcancelled
    · cases h

/-- The flight a call is responsible for. -/
def Phase.leads : Phase → Option (String × Nat)
  | .signing id f | .requesting id f | .recording id f _ => some (id, f)
  | _ => none

@[simp] theorem Client.goto_phase (p : Phase) :
    (c.goto w p).phase v = if v = w then p else c.phase v := by
  simp [Client.goto, Function.update_apply]

@[simp] theorem leads_signed {signs requests : Bool} :
    (Client.signed id f signs requests).leads = some (id, f) := by
  unfold Client.signed
  split_ifs <;> rfl

/-- A call goes on by itself. -/
theorem Stepped.phase_eq (h : Stepped c act c') (hv : act.mover ≠ some v) :
    c'.phase v = c.phase v := by
  cases h with
  | pass | cancel => rfl
  | _ =>
    have hne : v ≠ _ := fun heq => hv (congrArg some heq.symm)
    exact (Client.goto_phase _).trans (if_neg hne)

/-- A step makes a flight, ends one, or leaves the flights and their leaders alone. -/
theorem Stepped.flight_cases (h : Stepped c act c') :
    ((∀ v, (c'.phase v).leads = (c.phase v).leads) ∧ c'.flights = c.flights ∧
      c'.results = c.results ∧ c'.made = c.made) ∨
    (∃ w id now, act = .enter w ∧ c.phase w = .entering id now ∧ c.flights id = none ∧
      c' = c.launch w id) ∨
    ∃ w id f result, act = .record w ∧ c.phase w = .recording id f result ∧
      c' = c.record w id f result := by
  have hgoto : ∀ {w p}, p.leads = (c.phase w).leads →
      ∀ v, ((c.goto w p).phase v).leads = (c.phase v).leads := by grind [Client.goto_phase]
  cases h with
  | pass | cancel => exact .inl ⟨fun _ => rfl, rfl, rfl, rfl⟩
  | starts hphase hflight => exact .inr (.inl ⟨_, _, _, rfl, hphase, hflight, rfl⟩)
  | recorded hphase => exact .inr (.inr ⟨_, _, _, _, rfl, hphase, rfl⟩)
  | signed hphase =>
    refine .inl ⟨hgoto ?_, rfl, rfl, rfl⟩
    rw [leads_signed, hphase]
    rfl
  | refused hphase | called hphase | cached hphase | waits hphase | answered hphase
  | received hphase | gaveUp hphase =>
    refine .inl ⟨hgoto ?_, rfl, rfl, rfl⟩
    rw [hphase]
    rfl

/-- Every flight in the table has one leader, and the leader has it there. -/
structure Client.Sound (c : Client) : Prop where
  led : ∀ id f, c.flights id = some f → ∃ w, (c.phase w).leads = some (id, f)
  there : ∀ w id f, (c.phase w).leads = some (id, f) → c.flights id = some f
  one_leader : ∀ w v id f g, (c.phase w).leads = some (id, f) →
    (c.phase v).leads = some (id, g) → w = v
  one_id : ∀ id id' f, c.flights id = some f → c.flights id' = some f → id = id'
  pending : ∀ id f, c.flights id = some f → f < c.made ∧ c.results f = none
  fresh : ∀ f, c.made ≤ f → c.results f = none

theorem Client.Sound.initial : ({} : Client).Sound where
  led _ _ h := by cases h
  there _ _ _ h := by cases h
  one_leader _ _ _ _ _ h := by cases h
  one_id _ _ _ h := by cases h
  pending _ _ h := by cases h
  fresh _ _ := rfl

theorem Client.leads_launch : ((c.launch w id).phase v).leads =
    if v = w then some (id, c.made) else (c.phase v).leads := by
  rw [Client.launch, Client.goto_phase]
  split_ifs <;> rfl

theorem Client.flights_launch (x : String) : (c.launch w id).flights x =
    if x = id then some c.made else c.flights x :=
  Function.update_apply ..

theorem Client.Sound.launch (h : c.Sound) (hw : (c.phase w).leads = none)
    (hflight : c.flights id = none) : (c.launch w id).Sound where
  led x g hg := by
    rw [Client.flights_launch] at hg
    split_ifs at hg with hx
    · exact ⟨w, by simp [Client.leads_launch, hx, Option.some.inj hg]⟩
    · obtain ⟨v, hv⟩ := h.led x g hg
      have hne : v ≠ w := by
        rintro rfl
        rw [hw] at hv
        cases hv
      exact ⟨v, by rwa [Client.leads_launch, if_neg hne]⟩
  there v x g hv := by grind [h.there, Client.leads_launch, Client.flights_launch]
  one_leader v u x g g' hv hu := by
    rw [Client.leads_launch] at hv hu
    have hnone : ∀ u g, (c.phase u).leads ≠ some (id, g) := by
      intro u g hu
      have hold := h.there u id g hu
      rw [hflight] at hold
      cases hold
    grind [h.one_leader]
  one_id x x' g hx hx' := by
    rw [Client.flights_launch] at hx hx'
    have hnew : ∀ y, c.flights y ≠ some c.made := by
      intro y hy
      exact absurd (h.pending y _ hy).1 (lt_irrefl _)
    grind [h.one_id]
  pending x g hg := by
    rw [Client.flights_launch] at hg
    split_ifs at hg with hx
    · cases hg
      exact ⟨Nat.lt_succ_self _, h.fresh _ (le_refl _)⟩
    · obtain ⟨hlt, hnone⟩ := h.pending x g hg
      exact ⟨Nat.lt_succ_of_lt hlt, hnone⟩
  fresh g hg := h.fresh g (Nat.le_of_succ_le hg)

theorem Client.phase_record : (c.record w id f result).phase v =
    if v = w then .returned result else c.phase v :=
  Client.goto_phase _

theorem Client.leads_record : ((c.record w id f result).phase v).leads =
    if v = w then none else (c.phase v).leads := by
  rw [Client.phase_record]
  split_ifs <;> rfl

theorem Client.flights_record (x : String) : (c.record w id f result).flights x =
    if x = id then none else c.flights x :=
  Function.update_apply ..

theorem Client.results_record (g : Nat) : (c.record w id f result).results g =
    if g = f then some result else c.results g :=
  Function.update_apply ..

theorem Client.Sound.record (h : c.Sound) (hphase : c.phase w = .recording id f result) :
    (c.record w id f result).Sound := by
  have hleads : (c.phase w).leads = some (id, f) := by
    rw [hphase]
    rfl
  have hthere := h.there w id f hleads
  refine ⟨?_, ?_, ?_, ?_, ?_, ?_⟩
  · intro x g hg
    rw [Client.flights_record] at hg
    split_ifs at hg with hx
    obtain ⟨v, hv⟩ := h.led x g hg
    have hne : v ≠ w := by grind
    exact ⟨v, by rwa [Client.leads_record, if_neg hne]⟩
  · grind [h.there, h.one_leader, Client.leads_record, Client.flights_record]
  · grind [h.one_leader, Client.leads_record]
  · grind [h.one_id, Client.flights_record]
  · intro x g hg
    rw [Client.flights_record] at hg
    split_ifs at hg with hx
    rw [Client.results_record, if_neg]
    · exact h.pending x g hg
    · rintro rfl
      exact hx (h.one_id x id g hg hthere)
  · intro g hg
    rw [Client.results_record, if_neg]
    · exact h.fresh g hg
    · rintro rfl
      exact absurd (h.pending id g hthere).1 (not_lt.2 hg)

theorem Client.Sound.step (h : c.Sound) (hstep : GitHub.step c act = some c') : c'.Sound := by
  rcases (step_stepped hstep).flight_cases with ⟨hleads, hflights, hresults, hmade⟩ |
    ⟨w, id, now, rfl, hphase, hflight, rfl⟩ | ⟨w, id, f, result, rfl, hphase, rfl⟩
  · refine ⟨?_, ?_, ?_, ?_, ?_, ?_⟩
    · simpa only [hleads, hflights] using h.led
    · simpa only [hleads, hflights] using h.there
    · simpa only [hleads] using h.one_leader
    · simpa only [hflights] using h.one_id
    · simpa only [hflights, hmade, hresults] using h.pending
    · simpa only [hmade, hresults] using h.fresh
  · exact h.launch (by rw [hphase]; rfl) hflight
  · exact h.record hphase

theorem Reaches.sound (h : Reaches tr c) : c.Sound :=
  h.final_invariant Client.Sound .initial fun _ _ _ hc => hc.step

/-- A flight that is over is not in the table. -/
theorem Client.Sound.gone (h : c.Sound) (hresult : (c.results f).isSome = true) (id : String) :
    c.flights id ≠ some f := by
  intro hf
  rw [(h.pending id f hf).2] at hresult
  cases hresult

/-- How many steps the leader of a flight may need. -/
def Phase.rank : Phase → Nat
  | .signing _ _ => 3
  | .requesting _ _ => 2
  | .recording _ _ _ => 1
  | _ => 0

theorem Phase.rank_pos {p : Phase} (h : p.leads = some (id, f)) : 0 < p.rank := by
  cases p with
  | signing | requesting | recording => simp [Phase.rank]
  | _ => cases h

theorem Phase.rank_le (p : Phase) : p.rank ≤ 3 := by
  cases p <;> simp [Phase.rank]

theorem Stepped.results_mono (h : Stepped c act c') (hresult : c.results f = some result)
    (hsound : c.Sound) : c'.results f = some result := by
  rcases h.flight_cases with ⟨-, -, hresults, -⟩ | ⟨w, id, now, -, -, -, rfl⟩ |
    ⟨w, id, g, r, -, hphase, rfl⟩
  · rwa [hresults]
  · exact hresult
  · rw [Client.results_record, if_neg]
    · exact hresult
    · rintro rfl
      have hthere := hsound.there w id f (by rw [hphase]; rfl)
      rw [(hsound.pending id f hthere).2] at hresult
      cases hresult

/-- **A leader comes closer to the end with every step of its own**, and nobody else ends its
flight. -/
theorem Stepped.leader (h : Stepped c act c') (hleads : (c.phase w).leads = some (id, f)) :
    ((c'.phase w).leads = some (id, f) ∧
      (c'.phase w).rank + (if act.mover = some w then 1 else 0) ≤ (c.phase w).rank) ∨
    (act = .record w ∧ (c'.results f).isSome = true ∧ c'.flights id = none) := by
  by_cases hmover : act.mover = some w
  · rw [if_pos hmover]
    cases h with
    | pass | cancel => cases hmover
    | @signed _ _ _ signs requests hphase =>
      cases hmover
      rw [hphase] at hleads
      cases hleads
      refine .inl ⟨by simp, ?_⟩
      grind [Client.goto_phase, Phase.rank, Client.signed]
    | answered hphase =>
      cases hmover
      rw [hphase] at hleads
      cases hleads
      refine .inl ⟨by simp [Phase.leads], ?_⟩
      simp [hphase, Phase.rank]
    | recorded hphase =>
      cases hmover
      rw [hphase] at hleads
      cases hleads
      exact .inr ⟨rfl, by simp [Client.results_record], by simp [Client.flights_record]⟩
    | refused hphase | called hphase | cached hphase | waits hphase | starts hphase
    | received hphase | gaveUp hphase =>
      cases hmover
      rw [hphase] at hleads
      cases hleads
  · grind [h.phase_eq]

/-- The same along a run. -/
theorem Runs.leader (h : Runs c tr c') (hsound : c.Sound)
    (hleads : (c.phase w).leads = some (id, f)) : ((c'.phase w).leads = some (id, f) ∧
      (c'.phase w).rank + tr.countP (fun st => st.act.mover = some w) ≤ (c.phase w).rank) ∨
    (c'.results f).isSome = true := by
  have hinv : c'.Sound ∧ (((c'.phase w).leads = some (id, f) ∧
      (c'.phase w).rank + tr.countP (fun st => st.act.mover = some w) ≤ (c.phase w).rank) ∨
      (c'.results f).isSome = true) := by
    induction h with
    | nil => exact ⟨hsound, .inl ⟨hleads, by simp⟩⟩
    | @snoc tr c₁ c₂ act run hstep ih =>
      obtain ⟨hsound₁, hcase⟩ := ih
      refine ⟨hsound₁.step hstep, ?_⟩
      rcases hcase with ⟨hleads₁, hrank⟩ | hover
      · rcases (step_stepped hstep).leader hleads₁ with ⟨hleads₂, hrank₂⟩ | ⟨-, hresult, -⟩
        · grind
        · exact .inr hresult
      · obtain ⟨result, hresult⟩ := Option.isSome_iff_exists.1 hover
        rw [(step_stepped hstep).results_mono hresult hsound₁]
        exact .inr rfl
  exact hinv.2

/-- A leader can always go on, once its request has come to an end. -/
theorem leader_enabled (hleads : (c.phase w).leads = some (id, f)) :
    ∃ act c', act.mover = some w ∧ step c act = some c' := by
  cases hphase : c.phase w with
  | signing id' f' =>
    refine ⟨.sign w true true, c.goto w (.requesting id' f'), rfl, ?_⟩
    simp only [step, hphase]
    rfl
  | requesting id' f' =>
    refine ⟨.exchange w .failed, c.goto w (.recording id' f' (answer c.clock w .failed)), rfl, ?_⟩
    simp [step, hphase, Exchange.cut]
  | recording id' f' result =>
    exact ⟨.record w, c.record w id' f' result, rfl, by simp only [step, hphase]⟩
  | _ =>
    rw [hphase] at hleads
    cases hleads

/-- The call starts the flight. -/
def Starts (w : Nat) (id : String) (f : Nat) (st : Step Client Action) : Prop :=
  st.act = .enter w ∧ st.before.flights id = none ∧ st.after.flights id = some f ∧
    st.after.phase w = .signing id f

/-- A leader has started its flight. -/
theorem Reaches.leaders (h : Reaches tr c) (hleads : (c.phase w).leads = some (id, f)) :
    ∃ st ∈ tr, Starts w id f st := by
  induction h with
  | nil => cases hleads
  | @snoc tr c₁ c₂ act run hstep ih =>
    have hold : (c₁.phase w).leads = some (id, f) →
        ∃ st ∈ tr ++ [⟨c₁, act, c₂⟩], Starts w id f st := by grind
    rcases (step_stepped hstep).flight_cases with ⟨hsame, -⟩ |
      ⟨v, x, now, rfl, hphase, hflight, rfl⟩ | ⟨v, x, g, result, rfl, hphase, rfl⟩
    · exact hold ((hsame w).symm.trans hleads)
    · rw [Client.leads_launch] at hleads
      split_ifs at hleads with hw
      · cases hleads
        refine ⟨_, List.mem_append_right _ (List.mem_singleton.2 rfl), by rw [hw], hflight,
          ?_, ?_⟩
        · rw [Client.flights_launch, if_pos rfl]
        · rw [Client.launch, Client.goto_phase, if_pos hw]
      · exact hold hleads
    · grind [Client.leads_record]

/-- The call ends the flight with the result, and has stored the token. -/
def Ends (w : Nat) (id : String) (f : Nat) (result : Except Failure Token)
    (st : Step Client Action) : Prop :=
  st.act = .record w ∧ st.before.phase w = .recording id f result ∧
    ∀ t, result = .ok t → st.after.cache id = some t

/-- A call that waits has waited before, or has found the flight in the table. -/
theorem Stepped.waiting (h : Stepped c act c') (hw : c'.phase w = .waiting id f) :
    c.phase w = .waiting id f ∨
      (c.flights id = some f ∧ c'.flights = c.flights ∧ c'.results = c.results) := by
  by_cases hmover : act.mover = some w
  · cases h with
    | pass | cancel => cases hmover
    | waits hphase hflight =>
      cases hmover
      rw [Client.goto_phase, if_pos rfl] at hw
      cases hw
      exact .inr ⟨hflight, rfl, rfl⟩
    | starts => grind [Client.launch, Client.goto_phase]
    | recorded => grind [Client.phase_record]
    | @signed _ _ _ signs requests => grind [Client.goto_phase, leads_signed, Phase.leads]
    | _ => grind [Client.goto_phase]
  · exact .inl ((h.phase_eq hmover).symm.trans hw)

/-- A waiting call has its flight in the table, or the flight is over. -/
theorem Reaches.waiting (h : Reaches tr c) (hw : c.phase w = .waiting id f) :
    c.flights id = some f ∨ (c.results f).isSome = true := by
  induction h with
  | nil => cases hw
  | @snoc tr c₁ c₂ act run hstep ih =>
    have hsound : c₁.Sound := Reaches.sound run
    rcases (step_stepped hstep).waiting hw with hold | ⟨hflight, hflights, -⟩
    · rcases ih hold with hflight | hover
      · rcases (step_stepped hstep).flight_cases with ⟨-, hflights, -⟩ |
          ⟨v, x, now, rfl, hphase, hnone, rfl⟩ | ⟨v, x, g, result, rfl, hphase, rfl⟩
        · exact .inl (by rwa [hflights])
        · grind [Client.flights_launch]
        · by_cases hx : id = x
          · subst hx
            have hthere := hsound.there v id g (by rw [hphase]; rfl)
            grind [Client.results_record]
          · exact .inl (by rwa [Client.flights_record, if_neg hx])
      · obtain ⟨result, hresult⟩ := Option.isSome_iff_exists.1 hover
        rw [(step_stepped hstep).results_mono hresult hsound]
        exact .inr rfl
    · exact .inl (by rwa [hflights])

/-- A flight that is over was ended by its leader; the calls that wait for it wait for a token
of the same installation. -/
theorem Reaches.recorded (h : Reaches tr c) (hresult : c.results f = some result) :
    ∃ st ∈ tr, ∃ v id, Ends v id f result st ∧ ∀ w id', c.phase w = .waiting id' f → id' = id := by
  induction h with
  | nil => cases hresult
  | @snoc tr c₁ c₂ act run hstep ih =>
    have hsound : c₁.Sound := Reaches.sound run
    have hold : c₁.results f = some result → ∃ st ∈ tr ++ [⟨c₁, act, c₂⟩], ∃ v id,
        Ends v id f result st ∧ ∀ w id', c₂.phase w = .waiting id' f → id' = id := by
      intro hresult₁
      obtain ⟨st, hst, v, id, hends, hwait⟩ := ih hresult₁
      refine ⟨st, List.mem_append_left _ hst, v, id, hends, fun w id' hw => ?_⟩
      rcases (step_stepped hstep).waiting hw with hw | ⟨hflight, -⟩
      · exact hwait w id' hw
      · rw [(hsound.pending id' f hflight).2] at hresult₁
        cases hresult₁
    rcases (step_stepped hstep).flight_cases with ⟨-, -, hresults, -⟩ |
      ⟨v, x, now, rfl, hphase, hflight, rfl⟩ | ⟨v, x, g, r, rfl, hphase, rfl⟩
    · exact hold (by rwa [← hresults])
    · exact hold hresult
    · rw [Client.results_record] at hresult
      split_ifs at hresult with hg
      · subst hg
        cases hresult
        have hthere := hsound.there v x f (by rw [hphase]; rfl)
        refine ⟨_, List.mem_append_right _ (List.mem_singleton.2 rfl), v, x,
          ⟨rfl, hphase, ?_⟩, fun w id' hw => ?_⟩
        · rintro t rfl
          exact Function.update_self ..
        · rcases (step_stepped hstep).waiting hw with hw | ⟨hflight, -⟩
          · rcases Reaches.waiting run hw with hflight | hover
            · exact hsound.one_id id' x f hflight hthere
            · rw [(hsound.pending x f hthere).2] at hover
              cases hover
          · exact hsound.one_id id' x f hflight hthere
      · exact hold hresult

theorem step_receive (h : step c (.receive w) = some c') (hphase : c.phase w = .waiting id f) :
    ∃ result, c.results f = some result ∧ c'.phase w = .returned result := by
  simp only [step, hphase] at h
  obtain ⟨result, hresult, rfl⟩ := Option.map_eq_some_iff.1 h
  exact ⟨result, hresult, by simp⟩

/-- The step lets the cancellation of a context end a request. -/
def Cuts (act : Action) : Prop := ∃ w e, act = .exchange w e ∧ e.cut = true

theorem answer_cause {now : Time} {e : Exchange} {x : Failure}
    (h : answer now w e = .error x) (hcut : e.cut = false) : x.cause = none := by
  unfold answer at h
  split at h
  · cases hcut
  · cases h
    rfl
  · grind [Exchange.cut]

/-- An error that comes from a context comes from the call's own. -/
structure Client.Unshared (c : Client) : Prop where
  outcome : ∀ f e, c.results f = some (.error e) → e.cause = none
  leading : ∀ w id f e, c.phase w = .recording id f (.error e) → e.cause = none
  returned : ∀ w e v, c.phase w = .returned (.error e) → e.cause = some v →
    v = w ∧ c.cancelled w = true

theorem Client.Unshared.initial : ({} : Client).Unshared where
  outcome _ _ h := by cases h
  leading _ _ _ _ h := by cases h
  returned _ _ _ h := by cases h

theorem Client.Unshared.goto (h : c.Unshared) {p : Phase}
    (hleading : ∀ id f e, p = .recording id f (.error e) → e.cause = none)
    (hreturned : ∀ e v, p = .returned (.error e) → e.cause = some v →
      v = w ∧ c.cancelled w = true) : (c.goto w p).Unshared where
  outcome := h.outcome
  leading v id f e hv := by grind [h.leading, Client.goto_phase]
  returned v e u hv hcause := by
    rw [Client.goto_phase] at hv
    split_ifs at hv with hvw
    · subst hvw
      exact hreturned e u hv hcause
    · exact h.returned v e u hv hcause

theorem Client.Unshared.step (h : c.Unshared) (hcut : ¬ Cuts act)
    (hstep : GitHub.step c act = some c') : c'.Unshared := by
  cases step_stepped hstep with
  | pass => exact ⟨h.outcome, h.leading, h.returned⟩
  | cancel u =>
    refine ⟨h.outcome, h.leading, fun w e v hw hcause => ?_⟩
    obtain ⟨hv, hcancelled⟩ := h.returned w e v hw hcause
    grind
  | refused =>
    refine h.goto (fun _ _ _ hp => by cases hp) fun e v hp hcause => ?_
    grind
  | called | waits =>
    exact h.goto (fun _ _ _ hp => by cases hp) fun _ _ hp => by cases hp
  | cached => exact h.goto (fun _ _ _ hp => by cases hp) fun _ _ hp => by cases hp
  | @starts w id =>
    have hmade : ({ c with
        flights := Function.update c.flights id (some c.made)
        made := c.made + 1 } : Client).Unshared := ⟨h.outcome, h.leading, h.returned⟩
    exact hmade.goto (fun _ _ _ hp => by cases hp) fun _ _ hp => by cases hp
  | signed => grind [h.goto, Client.signed]
  | @answered w _ _ e hphase hcancelled =>
    have hwhole : e.cut = false := by grind [Cuts]
    refine h.goto (fun id f x hp => ?_) fun _ _ hp => by cases hp
    exact answer_cause (Phase.recording.inj hp).2.2 hwhole
  | @recorded w f id result hphase =>
    have hnone : ∀ e, result = .error e → e.cause = none := by
      rintro e rfl
      exact h.leading w id f e hphase
    refine ⟨fun g e hg => ?_, fun v x g e hv => ?_, fun v e u hv hcause => ?_⟩
    · grind [h.outcome, Client.results_record]
    · grind [h.leading, Client.phase_record]
    · rw [Client.phase_record] at hv
      split_ifs at hv
      · grind
      · exact h.returned v e u hv hcause
  | received hphase hresult =>
    refine h.goto (fun _ _ _ hp => by cases hp) fun e v hp hcause => ?_
    grind [h.outcome]
  | gaveUp hphase hcancelled =>
    refine h.goto (fun _ _ _ hp => by cases hp) fun e v hp hcause => ?_
    grind

/-- The error a call has returned. -/
def Phase.error : Phase → Option Failure
  | .returned (.error e) => some e
  | _ => none

theorem Phase.error_eq {p : Phase} {e : Failure} (h : p.error = some e) :
    p = .returned (.error e) := by
  unfold Phase.error at h
  split at h
  · rw [Option.some.inj h]
  · cases h

/-- The flights over a run `tr` that ends in `c`. -/
structure SharesFlights (tr : List (Step Client Action)) (c : Client) : Prop where
  /-- At most one request for an installation is under way. -/
  one_request : ∀ w v id f g, c.phase w = .requesting id f → c.phase v = .requesting id g → w = v
  /-- A flight leaves the table by a step of the call that has started it. -/
  removed : ∀ pre st post id f, tr = pre ++ st :: post → st.before.flights id = some f →
    st.after.flights id ≠ some f → ∃ w, st.act = .record w ∧ ∃ st₀ ∈ pre, Starts w id f st₀
  /-- That call can always go on, and three steps of it are enough. -/
  removes : ∀ id f, c.flights id = some f → ∃ w, (∃ st₀ ∈ tr, Starts w id f st₀) ∧
    (∃ act c', act.mover = some w ∧ step c act = some c') ∧
    ∀ tr' c', Runs c tr' c' → 3 ≤ tr'.countP (fun st => st.act.mover = some w) →
      c'.flights id ≠ some f
  /-- A token is stored before a waiting call returns it. -/
  stored : ∀ pre st post w id f t, tr = pre ++ st :: post → st.act = .receive w →
    st.before.phase w = .waiting id f → st.after.phase w = .returned (.ok t) →
    ∃ st' ∈ pre, ∃ v, Ends v id f (.ok t) st'
  /-- Unless a context that was cancelled has ended a request, a call sees only the error of its
  own context. -/
  own_error : (∀ st ∈ tr, ¬ Cuts st.act) → ∀ w e v, c.phase w = .returned (.error e) →
    e.cause = some v → v = w ∧ c.cancelled w = true

/-- **Shared flights.**  In every run of the client, whatever the calls, their contexts and the
server do. -/
theorem token_flights (h : Reaches tr c) : SharesFlights tr c where
  one_request w v id f g hw hv := by
    refine (Reaches.sound h).one_leader w v id f g ?_ ?_
    · rw [hw]
      rfl
    · rw [hv]
      rfl
  removed := by
    rintro pre st post id f rfl hbefore hafter
    obtain ⟨hpre, hstep, -⟩ := h.split
    have hsound : st.before.Sound := Reaches.sound hpre
    obtain ⟨w, hw⟩ := hsound.led id f hbefore
    rcases (step_stepped hstep).leader hw with ⟨hleads, -⟩ | ⟨hact, -, -⟩
    · exact absurd ((hsound.step hstep).there w id f hleads) hafter
    · exact ⟨w, hact, Reaches.leaders hpre hw⟩
  removes := by
    intro id f hflight
    have hsound := Reaches.sound h
    obtain ⟨w, hw⟩ := hsound.led id f hflight
    refine ⟨w, Reaches.leaders h hw, leader_enabled hw, fun tr' c' hrun hcount => ?_⟩
    rcases Runs.leader hrun hsound hw with ⟨hleads, hrank⟩ | hover
    · have hpos := Phase.rank_pos hleads
      have hle := Phase.rank_le (c.phase w)
      omega
    · exact (Reaches.sound (Trace.append h hrun)).gone hover id
  stored := by
    rintro pre st post w id f t rfl hact hwaiting hreturned
    obtain ⟨hpre, hstep, -⟩ := h.split
    rw [hact] at hstep
    obtain ⟨result, hresult, hphase⟩ := step_receive hstep hwaiting
    obtain rfl := Phase.returned.inj (hphase.symm.trans hreturned)
    obtain ⟨st', hst', v, id', hends, hids⟩ := Reaches.recorded hpre hresult
    obtain rfl := hids w id hwaiting
    exact ⟨st', hst', v, hends⟩
  own_error hcuts := by
    have hunshared := (Trace.guarded Client.Unshared (fun _ act => ¬ Cuts act) .initial
      (fun _ _ _ hc hcut hstep => hc.step hcut hstep) h hcuts).1
    exact hunshared.returned

namespace Sample

/-- Two calls for one installation; the second one waits. -/
def joined : List Action :=
  [.call 0 "1", .call 1 "1", .enter 0, .enter 1, .sign 0 true true]

/-- A third call waits, is cancelled and gives up; then a token comes. -/
def answered : List Action :=
  joined ++ [.call 2 "1", .enter 2, .cancel 2, .giveUp 2,
    .exchange 0 (.answered 201 (.token "secret" (2 * tokenSafetyMargin))), .record 0, .receive 1]

/-- The first call is cancelled, and that ends the request. -/
def cut : List Action :=
  joined ++ [.cancel 0, .exchange 0 .interrupted, .record 0, .receive 1]

end Sample

theorem answered_shares_flights : ∃ tr c, Reaches tr c ∧ SharesFlights tr c ∧
    (∀ st ∈ tr, ¬ Cuts st.act) ∧ c.phase 2 = .returned (.error ⟨.context, some 2⟩) ∧
    c.cache "1" = some ⟨"secret", 2 * tokenSafetyMargin⟩ ∧ ∃ st ∈ tr, st.act = .receive 1 := by
  have hrun : (Sample.answered.foldlM step {}).map (fun c => ((c.phase 2).error, c.cache "1")) =
      some (some ⟨.context, some 2⟩, some ⟨"secret", 2 * tokenSafetyMargin⟩) := by decide +kernel
  obtain ⟨tr, c, htr, hacts, hstate⟩ := Trace.of_foldlM_map hrun
  obtain ⟨hphase, hcache⟩ := Prod.mk.inj hstate
  have hcuts : ∀ act ∈ tr.map Step.act, ¬ Cuts act := by
    simp [hacts, Sample.answered, Sample.joined, Cuts, Exchange.cut]
  have hmem : Action.receive 1 ∈ tr.map Step.act := by simp [hacts, Sample.answered]
  obtain ⟨st, hst, hact⟩ := List.mem_map.1 hmem
  exact ⟨tr, c, htr, token_flights htr, fun st hst => hcuts _ (List.mem_map_of_mem hst),
    Phase.error_eq hphase, hcache, st, hst, hact⟩

/-- **The cancellation of a context reaches another call.** -/
theorem cancellation_shared : ¬ ∀ (tr : List (Step Client Action)) (c : Client), Reaches tr c →
    ∀ w e v, c.phase w = .returned (.error e) → c.cancelled w = false →
      e.cause = some v → v = w := by
  intro hall
  have hrun : (Sample.cut.foldlM step {}).map (fun c => ((c.phase 1).error, c.cancelled 1)) =
      some (some ⟨.context, some 0⟩, false) := by decide +kernel
  obtain ⟨tr, c, htr, -, hstate⟩ := Trace.of_foldlM_map hrun
  obtain ⟨hphase, hcancelled⟩ := Prod.mk.inj hstate
  have hown := hall tr c htr 1 ⟨.context, some 0⟩ 0 (Phase.error_eq hphase) hcancelled rfl
  cases hown

end GitHub
