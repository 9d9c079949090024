/-
  Traccia Runtime formalization — the governance of queries (`governance/contracts.py`,
  `governance/engine.py`: `QueryGovernanceEngine`).

  * `QueryGovernancePolicy`, `GovernedQueryRequest`: what a query is held to, and what it says
    of itself;
  * `QueryGovernanceEngine.reasons`: the checks, in their order; `evaluate`, `enforce`.

  Times are in seconds.  The lineage of a source and the metadata of a request, which no check
  reads, are left out, and so are the span and the counter.
-/
import TracciaRuntime.Types
import Mathlib.Data.List.Dedup
import Mathlib.Data.Rat.Defs

namespace TracciaRuntime

inductive ExportAction where
  | viewSql | download | exportArtifact
  deriving DecidableEq

/-- What is known of a source, and what is asked of it. -/
structure DataTrustRequirement where
  sourceId : String
  observedAt : Option ℚ := none
  maximumAgeSeconds : Option Nat := none
  maximumAgeSeconds_pos : ∀ a ∈ maximumAgeSeconds, 0 < a := by simp
  completeness : Option ℚ := none
  minimumCompleteness : Option ℚ := none
  certified : Bool := false

structure QueryEstimate where
  estimatedRows : Nat := 0
  estimatedBytesScanned : Nat := 0
  estimatedComputeSeconds : ℚ := 0

structure QueryGovernancePolicy where
  allowedPurposes : List String := []
  requiredAuthorizationTags : List String := []
  deniedColumns : List String := []
  allowedMetrics : List String := []
  requireCertifiedSources : Bool := true
  maximumRows : Nat := 10000
  maximumRows_pos : 1 ≤ maximumRows := by decide
  maximumBytesScanned : Nat := 1000000000
  maximumBytesScanned_pos : 1 ≤ maximumBytesScanned := by decide
  maximumComputeSeconds : ℚ := 30
  allowSqlVisibility : Bool := false
  allowDownload : Bool := false
  allowArtifactExport : Bool := false
  auditRetentionDays : Nat := 365
  auditRetentionDays_pos : 1 ≤ auditRetentionDays := by decide

structure GovernedQueryRequest where
  tenantId : String
  userId : String
  purpose : String
  sourceIds : List String
  sourceIds_ne : sourceIds ≠ [] := by simp
  columns : List String := []
  metrics : List String := []
  authorizationTags : List String := []
  trust : List DataTrustRequirement := []
  estimate : QueryEstimate := {}
  requestedActions : List ExportAction := []
  queryFingerprint : Option String := none

inductive GovernanceDecisionType where
  | allow | deny
  deriving DecidableEq

structure GovernanceDecision where
  decision : GovernanceDecisionType
  reasonCode : String
  reasons : List String := []
  /-- `audit_metadata` -/
  tenantId : String
  purpose : String
  sourceCount : Nat
  queryFingerprint : Option String
  auditRetentionDays : Nat

/-- The order in which Python goes through a set. -/
structure SetOrder where
  iterate : List String → List String
  perm : ∀ l, (iterate l).Perm l.dedup

namespace QueryGovernanceEngine
variable (order : SetOrder) (policy : QueryGovernancePolicy) (now : ℚ)
  (request : GovernedQueryRequest)

/-- `if condition: reasons.append(reason)`. -/
def check (condition : Prop) [Decidable condition] (reason : String) : List String :=
  if condition then [reason] else []

/-- The checks of one entry of `trust`. -/
def trustReasons (trust : DataTrustRequirement) : List String :=
  check (policy.requireCertifiedSources ∧ trust.certified = false)
      s!"source_not_certified:{trust.sourceId}" ++
    check (trust.maximumAgeSeconds.isSome ∧ trust.observedAt = none)
      s!"source_freshness_unknown:{trust.sourceId}" ++
    check (∃ a ∈ trust.maximumAgeSeconds, ∃ o ∈ trust.observedAt, now - o > a)
      s!"source_stale:{trust.sourceId}" ++
    check (∃ m ∈ trust.minimumCompleteness, ∀ c ∈ trust.completeness, c < m)
      s!"source_incomplete:{trust.sourceId}"

/-- `action_policy`. -/
def actionPolicy : ExportAction → Bool
  | .viewSql => policy.allowSqlVisibility
  | .download => policy.allowDownload
  | .exportArtifact => policy.allowArtifactExport

/-- The sources without an entry of `trust`. -/
def missingTrust : List String :=
  order.iterate (request.sourceIds.filter (· ∉ request.trust.map (·.sourceId)))

def reasons : List String :=
  check (policy.allowedPurposes ≠ [] ∧ request.purpose ∉ policy.allowedPurposes)
      "purpose_not_allowed" ++
    check (∃ t ∈ policy.requiredAuthorizationTags, t ∉ request.authorizationTags)
      "missing_authorization_tags" ++
    check (∃ c ∈ request.columns, c ∈ policy.deniedColumns) "denied_column" ++
    check (policy.allowedMetrics ≠ [] ∧ ∃ m ∈ request.metrics, m ∉ policy.allowedMetrics)
      "metric_not_allowed" ++
    (if policy.requireCertifiedSources then
      (missingTrust order request).map fun s => s!"source_trust_missing:{s}" else []) ++
    request.trust.flatMap (trustReasons policy now) ++
    check (request.estimate.estimatedRows > policy.maximumRows) "row_quota_exceeded" ++
    check (request.estimate.estimatedBytesScanned > policy.maximumBytesScanned)
      "scan_quota_exceeded" ++
    check (request.estimate.estimatedComputeSeconds > policy.maximumComputeSeconds)
      "compute_quota_exceeded" ++
    check (∃ a ∈ request.requestedActions, actionPolicy policy a = false)
      "export_action_not_allowed"

def evaluate : GovernanceDecision where
  decision := if reasons order policy now request = [] then .allow else .deny
  reasonCode := (reasons order policy now request).headD "all_checks_passed"
  reasons := reasons order policy now request
  tenantId := request.tenantId
  purpose := request.purpose
  sourceCount := request.sourceIds.length
  queryFingerprint := request.queryFingerprint
  auditRetentionDays := policy.auditRetentionDays

def enforce : Except Exn GovernanceDecision :=
  let decision := evaluate order policy now request
  let listed := ", ".intercalate decision.reasons
  if decision.decision = .deny then
    .error (.policyDenied s!"governed query denied ({decision.reasonCode}): {listed}")
  else .ok decision

end QueryGovernanceEngine

end TracciaRuntime
