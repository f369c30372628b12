import Mathlib.Data.List.Infix
import ForgeCI.Transactions

/-!
# GitHub webhooks

`Normalize` reduces a decoded webhook to an event, and `githubWebhook` turns the event
into the delivery that is recorded.  Only the columns of a delivery that the store's
model keeps are built here.
-/

namespace Scm

open GoLib Postgres

/-- `strings.ToLower` of a hash, whose letters are ASCII. -/
def toLower (v : String) : String :=
  String.ofList (v.toList.map Char.toLower)

/-- A digit `hex.DecodeString` reads. -/
def hexDigit (c : Char) : Bool :=
  c.isDigit || ('a' ≤ c && c ≤ 'f') || ('A' ≤ c && c ≤ 'F')

/-- `validSHA`, of the webhooks and of the materializer. -/
def validSHA (v : String) : Bool :=
  (v.utf8ByteSize = 40 || v.utf8ByteSize = 64) && v.toList.all hexDigit

/-- `isZeroSHA`. -/
def isZeroSHA (v : String) : Bool :=
  v ≠ "" && v.toList.all (· = '0')

/-- `validRef`. -/
def validRef (v : String) : Bool :=
  v ≠ "" && v.utf8ByteSize ≤ 1024 && v.toList.all fun c => c ≠ '\x00' && c ≠ '\r' && c ≠ '\n'

/-- `ValidateHeader`. -/
def validateHeader (v : String) (max : Nat) : Bool :=
  v ≠ "" && v.utf8ByteSize ≤ max && v.toList.all fun c => 0x20 ≤ c.toNat && c.toNat ≠ 0x7f

/-- A part of a repository name. -/
def validNamePart (part : List Char) : Bool :=
  part ≠ [] && part ≠ ['.'] && !decide (['.', '.'] <:+: part)

/-- `NormalizeRepository` for the provider `github`.  A name may have letters beyond ASCII; `lower`
is what the tables of package `unicode` say of them. -/
def normalizeRepository (lower : Char → Char) (fullName : String) : Option String :=
  if fullName.utf8ByteSize = 0 ∨ 256 < fullName.utf8ByteSize ∨ trimSpace fullName ≠ fullName ∨
      (fullName.toList.any fun c =>
        c ∈ [' ', '\t', '\r', '\n', '\x00', '?', '#', ':', '\\', '@']) then
    none
  else match splitSlash fullName.toList with
  | [owner, name] =>
      if validNamePart owner && validNamePart name then
        some (String.ofList (fullName.toList.map lower))
      else none
  | _ => none

/-- `webhookEnvelope`, without the installation. -/
structure Envelope where
  action : String := ""
  after : String := ""
  ref : String := ""
  fullName : String := ""
  number : Int := 0
  draft : Bool := false
  headSHA : String := ""
  headRef : String := ""
  baseRef : String := ""

/-- `scm.Event`; an event without a repository is not recorded. -/
structure Event where
  deliveryID : String := ""
  repositoryFullName : String := ""
  eventType : String := ""
  action : String := ""
  commitSHA : String := ""
  pullRequestNumber : Option Int := none
  receivedAt : Time := 0

structure Normalized where
  event : Event := {}
  ignored : Bool := false

/-- The actions of a pull request that are recorded. -/
def recordedActions : List String :=
  ["opened", "reopened", "synchronize", "ready_for_review", "closed"]

/-- `Normalize`; a body that is not JSON is `none`, and so is a webhook it refuses. -/
def normalize (lower : Char → Char) (eventName deliveryID : String) (body : Option Envelope)
    (receivedAt : Time) : Option Normalized :=
  if eventName ≠ "push" ∧ eventName ≠ "pull_request" then some { ignored := true }
  else match body with
  | none => none
  | some envelope =>
      match normalizeRepository lower envelope.fullName with
      | none => none
      | some fullName =>
          let event : Event :=
            { deliveryID := deliveryID, repositoryFullName := fullName, receivedAt := receivedAt }
          if eventName = "push" then
            if startsWith envelope.ref "refs/heads/" = false ∨ isZeroSHA envelope.after then
              some { ignored := true }
            else if validSHA envelope.after = false then none
            else some { event := { event with
              eventType := "push", commitSHA := toLower envelope.after } }
          else if envelope.action ∉ recordedActions then some { ignored := true }
          else if envelope.number < 1 ∨ validSHA envelope.headSHA = false ∨
              validRef envelope.headRef = false ∨ validRef envelope.baseRef = false then none
          else some {
            event := { event with
              eventType := "pull_request"
              action := envelope.action
              commitSHA := toLower envelope.headSHA
              pullRequestNumber := some envelope.number }
            ignored := (envelope.draft && envelope.action ≠ "ready_for_review") ||
              envelope.action = "closed" }

/-- A webhook with a valid signature. -/
structure Webhook where
  eventName : String
  deliveryID : String
  body : Option Envelope
  payloadSHA256 : String
  lower : Char → Char := Char.toLower

/-- The replies of the handler that record nothing. -/
inductive WebhookReply where
  | badRequest
  | ignored

/-- `githubWebhook`, up to `CreateSCMDelivery`: the delivery to record, or the reply.
`enabled` is the column of the repository. -/
def githubWebhook (hook : Webhook) (id : Uuid) (now : Time) (enabled : Bool) (t : Rows) :
    Except WebhookReply Delivery :=
  if validateHeader hook.eventName 64 = false ∨ validateHeader hook.deliveryID 256 = false then
    .error .badRequest
  else match normalize hook.lower hook.eventName hook.deliveryID hook.body now with
  | none => .error .badRequest
  | some normalized =>
      let event := normalized.event
      if event.repositoryFullName = "" then .error .ignored
      else match t.repositories.find? fun r =>
          r.provider = "github" && r.normalizedFullName = event.repositoryFullName with
      | none => .error .ignored
      | some repository =>
          if enabled = false then .error .ignored
          else .ok {
            id := id
            provider := "github"
            deliveryID := event.deliveryID
            repositoryID := repository.id
            eventType := event.eventType
            action := event.action
            commitSHA := some event.commitSHA
            pullRequestNumber := event.pullRequestNumber
            payloadSHA256 := hook.payloadSHA256
            status := if normalized.ignored then .ignored else .pending
            receivedAt := event.receivedAt }

theorem toLower_char (c : Char) : c.toLower.toLower = c.toLower := by
  unfold Char.toLower
  split_ifs with h h'
  · exfalso
    have hlow : 65 ≤ c.val.toNat := h.1
    have hhigh : c.val.toNat ≤ 90 := h.2
    grind
  · rfl
  · rfl

@[simp] theorem toLower_toLower (v : String) : toLower (toLower v) = toLower v := by
  simp only [toLower, String.toList_ofList, List.map_map, Function.comp_def, toLower_char]

variable {hook : Webhook} {id : Uuid} {now : Time} {enabled : Bool} {t : Rows} {d : Delivery}

/-- An event that is recorded names a repository and a full hash in lower case. -/
theorem normalize_recorded {lower : Char → Char} {eventName deliveryID : String}
    {body : Option Envelope} {normalized : Normalized}
    (h : normalize lower eventName deliveryID body now = some normalized)
    (hname : normalized.event.repositoryFullName ≠ "") :
    ∃ sha, validSHA sha = true ∧ normalized.event.commitSHA = toLower sha := by
  unfold normalize at h
  grind

/-- **What the handler records.** -/
theorem githubWebhook_ok (h : githubWebhook hook id now enabled t = .ok d) :
    (d.status = .pending ∨ d.status = .ignored) ∧ d.attemptCount = 0 ∧ d.nextAttemptAt = none ∧
      ∃ sha, validSHA sha = true ∧ d.commitSHA = some (toLower sha) := by
  unfold githubWebhook at h
  split at h
  · cases h
  split at h
  · cases h
  rename_i normalized hnormalized
  simp only at h
  split at h
  · cases h
  rename_i hname
  split at h
  · cases h
  split at h
  · cases h
  cases h
  obtain ⟨sha, hsha, hcommit⟩ := normalize_recorded hnormalized hname
  grind

end Scm
