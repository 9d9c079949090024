/-
  The chart specifications that are accepted.

  * `Within`: the values at each depth of a value; `inlineRows`: the items of the arrays named
    `values`;
  * `Permitted`: what the claims of `inspect` say of a value, and `inspect_eq_ok`: `inspect`
    returns exactly for the permitted ones, and has counted their rows.
-/
import TracciaRuntime.Conversations.Visualization

namespace TracciaRuntime

open Py

/-! ## Values in a value -/

/-- `Within v n x`: the value `x` lies `n` levels below `v`. -/
inductive Within : Value → Nat → Value → Prop where
  | self {v} : Within v 0 v
  | item {l x n y} : x ∈ l → Within x n y → Within (.list l) (n + 1) y
  | member {d k x n y} : (k, x) ∈ d → Within x n y → Within (.dict d) (n + 1) y

/-- The number of rows that the member adds. -/
def rowsOf (key : String) (nested : Value) : Nat :=
  match nested with
  | .list rows => if key = "values" then rows.length else 0
  | _ => 0

mutual

/-- The total length of the arrays named `values`. -/
def inlineRows : Value → Nat
  | .dict members => inlineRowsMembers members
  | .list items => inlineRowsItems items
  | _ => 0

def inlineRowsMembers : List (String × Value) → Nat
  | [] => 0
  | (key, nested) :: rest => rowsOf key nested + inlineRows nested + inlineRowsMembers rest

def inlineRowsItems : List Value → Nat
  | [] => 0
  | nested :: rest => inlineRows nested + inlineRowsItems rest

end

/-- A member may stand in a chart: its key is not forbidden, and `values` are an array. -/
def MemberOk (key : String) (nested : Value) : Prop :=
  lower key ∉ forbiddenKeys ∧ (key = "values" → ∃ rows, nested = .list rows)

/-- A value that stands at this depth. -/
structure Permitted (depth : Nat) (v : Value) : Prop where
  shallow : ∀ n x, Within v n x → depth + n ≤ maxChartDepth
  members : ∀ n d, Within v n (.dict d) → ∀ m ∈ d, MemberOk m.1 m.2

section
variable {depth : Nat} {v : Value}

/-- A value that holds no others. -/
theorem permitted_leaf (hl : ∀ l, v ≠ .list l) (hd : ∀ d, v ≠ .dict d) :
    Permitted depth v ↔ depth ≤ maxChartDepth := by
  refine ⟨fun h => h.shallow 0 v .self, fun h => ⟨fun n x hx => ?_, fun n d hx => ?_⟩⟩
  · cases hx with
    | self => exact h
    | item => exact absurd rfl (hl _)
    | member => exact absurd rfl (hd _)
  · cases hx with
    | self => exact absurd rfl (hd _)
    | item => exact absurd rfl (hl _)
    | member => exact absurd rfl (hd _)

theorem permitted_list {items : List Value} : Permitted depth (.list items) ↔
    depth ≤ maxChartDepth ∧ ∀ x ∈ items, Permitted (depth + 1) x := by
  constructor
  · intro h
    refine ⟨h.shallow 0 _ .self, fun x hx => ⟨fun n y hy => ?_, fun n d hy => ?_⟩⟩
    · have := h.shallow (n + 1) y (.item hx hy)
      omega
    · exact h.members (n + 1) d (.item hx hy)
  · rintro ⟨hdepth, h⟩
    refine ⟨fun n y hy => ?_, fun n d hy => ?_⟩
    · cases hy with
      | self => exact hdepth
      | @item _ x n _ hx hy =>
        have := (h x hx).shallow n y hy
        omega
    · cases hy with
      | @item _ x n _ hx hy => exact (h x hx).members n d hy

theorem permitted_dict {members : List (String × Value)} : Permitted depth (.dict members) ↔
    depth ≤ maxChartDepth ∧ ∀ m ∈ members, MemberOk m.1 m.2 ∧ Permitted (depth + 1) m.2 := by
  constructor
  · intro h
    refine ⟨h.shallow 0 _ .self, fun m hm => ⟨h.members 0 _ .self m hm,
      fun n y hy => ?_, fun n d hy => ?_⟩⟩
    · have := h.shallow (n + 1) y (.member hm hy)
      omega
    · exact h.members (n + 1) d (.member hm hy)
  · rintro ⟨hdepth, h⟩
    refine ⟨fun n y hy => ?_, fun n d hy => ?_⟩
    · cases hy with
      | self => exact hdepth
      | @member _ k x n _ hm hy =>
        have := (h _ hm).2.shallow n y hy
        omega
    · cases hy with
      | self => exact fun m hm => (h m hm).1
      | @member _ k x n _ hm hy => exact (h _ hm).2.members n d hy

end

/-! ## What `inspect` accepts -/

theorem countRows_eq_ok {key : String} {nested : Value} {rows counted : Nat} :
    countRows key nested rows = .ok counted ↔
      (key = "values" → ∃ l, nested = .list l) ∧ counted = rows + rowsOf key nested := by
  unfold countRows valueError
  split_ifs with hkey
  · cases nested <;> simp [rowsOf, hkey, eq_comm]
  · have hrows : rowsOf key nested = 0 := by
      cases nested <;> simp [rowsOf, hkey]
    simp [hkey, hrows, eq_comm]

theorem inspect_leaf {depth rows counted : Nat} {v : Value} (hl : ∀ l, v ≠ .list l)
    (hd : ∀ d, v ≠ .dict d) :
    inspect depth rows v = .ok counted ↔ Permitted depth v ∧ counted = rows + inlineRows v := by
  rw [permitted_leaf hl hd]
  cases v with
  | list l => exact absurd rfl (hl l)
  | dict d => exact absurd rfl (hd d)
  | _ =>
    simp only [inspect, inlineRows, valueError]
    split_ifs with hdepth
    · simp [Nat.not_le.2 hdepth]
    · simp [Nat.le_of_not_lt hdepth, eq_comm]

mutual

/-- **What `inspect` accepts**, and what it counts. -/
theorem inspect_eq_ok {depth rows counted : Nat} : (v : Value) →
    (inspect depth rows v = .ok counted ↔ Permitted depth v ∧ counted = rows + inlineRows v)
  | .dict members => by
    unfold inspect valueError
    rw [permitted_dict, inlineRows]
    split_ifs with hdepth
    · simp [Nat.not_le.2 hdepth]
    · rw [inspectMembers_eq_ok members]
      simp [Nat.le_of_not_lt hdepth]
  | .list items => by
    unfold inspect valueError
    rw [permitted_list, inlineRows]
    split_ifs with hdepth
    · simp [Nat.not_le.2 hdepth]
    · rw [inspectItems_eq_ok items]
      simp [Nat.le_of_not_lt hdepth]
  | .null | .bool _ | .int _ | .float _ | .nan | .infinity _ | .str _ => by
    exact inspect_leaf (by intro l h; cases h) (by intro d h; cases h)

theorem inspectMembers_eq_ok {depth rows counted : Nat} : (members : List (String × Value)) →
    (inspectMembers depth rows members = .ok counted ↔
      (∀ m ∈ members, MemberOk m.1 m.2 ∧ Permitted (depth + 1) m.2) ∧
      counted = rows + inlineRowsMembers members)
  | [] => by simp [inspectMembers, inlineRowsMembers, eq_comm]
  | (key, nested) :: rest => by
    unfold inspectMembers
    rw [inlineRowsMembers, List.forall_mem_cons]
    split_ifs with hkey
    · simp [valueError, MemberOk, hkey]
    · rw [bind_eq_ok]
      constructor
      · rintro ⟨a, ha, h⟩
        obtain ⟨b, hb, h⟩ := bind_eq_ok.1 h
        obtain ⟨hvalues, rfl⟩ := countRows_eq_ok.1 ha
        obtain ⟨hnested, rfl⟩ := (inspect_eq_ok nested).1 hb
        obtain ⟨hrest, rfl⟩ := (inspectMembers_eq_ok rest).1 h
        exact ⟨⟨⟨⟨hkey, hvalues⟩, hnested⟩, hrest⟩, by omega⟩
      · rintro ⟨⟨⟨⟨-, hvalues⟩, hnested⟩, hrest⟩, rfl⟩
        refine ⟨_, countRows_eq_ok.2 ⟨hvalues, rfl⟩, bind_eq_ok.2 ⟨_,
          (inspect_eq_ok nested).2 ⟨hnested, rfl⟩, (inspectMembers_eq_ok rest).2 ⟨hrest, ?_⟩⟩⟩
        omega

theorem inspectItems_eq_ok {depth rows counted : Nat} : (items : List Value) →
    (inspectItems depth rows items = .ok counted ↔
      (∀ x ∈ items, Permitted (depth + 1) x) ∧ counted = rows + inlineRowsItems items)
  | [] => by simp [inspectItems, inlineRowsItems, eq_comm]
  | nested :: rest => by
    unfold inspectItems
    rw [inlineRowsItems, List.forall_mem_cons, bind_eq_ok]
    constructor
    · rintro ⟨a, ha, h⟩
      obtain ⟨hnested, rfl⟩ := (inspect_eq_ok nested).1 ha
      obtain ⟨hrest, rfl⟩ := (inspectItems_eq_ok rest).1 h
      exact ⟨⟨hnested, hrest⟩, by omega⟩
    · rintro ⟨⟨hnested, hrest⟩, rfl⟩
      refine ⟨_, (inspect_eq_ok nested).2 ⟨hnested, rfl⟩, (inspectItems_eq_ok rest).2 ⟨hrest, ?_⟩⟩
      omega

end

/-! ## Validation -/

section
variable {dumps : Value → Result (List UInt8)} {loads : List UInt8 → Result Value}

/-- **Chart validation is exact**: a finite JSON object of admissible size with a view key is
    accepted, and returned as it is, exactly if no key is forbidden, no value lies too deep, all
    `values` are arrays and these have no more rows than permitted. -/
theorem chart_accepted_iff {members : List (String × Value)} {encoded : List UInt8}
    (hjson : dumps (.dict members) = .ok encoded ∧ loads encoded = .ok (.dict members))
    (hsize : encoded.length ≤ maxChartSpecBytes)
    (hview : ∃ key ∈ members.map Prod.fst, key ∈ viewKeys) (r : Value) :
    validateVegaLiteSpecification dumps loads (.dict members) = .ok r ↔
      r = .dict members ∧
      (∀ n d, Within (.dict members) n (.dict d) → ∀ m ∈ d, lower m.1 ∉ forbiddenKeys) ∧
      (∀ n x, Within (.dict members) n x → n ≤ maxChartDepth) ∧
      (∀ n d, Within (.dict members) n (.dict d) → ∀ m ∈ d, m.1 = "values" →
        ∃ rows, m.2 = .list rows) ∧
      inlineRows (.dict members) ≤ maxInlineChartRows := by
  obtain ⟨key, hkey, hin⟩ := hview
  have hne : members ≠ [] := by
    rintro rfl
    cases hkey
  have hview : ¬ ∀ key ∈ members.map Prod.fst, key ∉ viewKeys := fun h => h key hkey hin
  unfold validateVegaLiteSpecification
  rw [hjson.1]
  dsimp only
  rw [if_neg (Nat.not_lt.2 hsize), hjson.2]
  change (if members = [] then _ else _ : Result Value) = _ ↔ _
  rw [if_neg hne, if_neg hview, bind_eq_ok]
  constructor
  · rintro ⟨rows, hrows, h⟩
    obtain ⟨hp, rfl⟩ := (inspect_eq_ok _).1 hrows
    split_ifs at h with hmax
    · cases h
    · cases h
      refine ⟨rfl, fun n d hx m hm => (hp.members n d hx m hm).1, fun n x hx => ?_,
        fun n d hx m hm => (hp.members n d hx m hm).2, by omega⟩
      have := hp.shallow n x hx
      omega
  · rintro ⟨rfl, hkeys, hdepth, hvalues, hrows⟩
    have hp : Permitted 0 (.dict members) :=
      ⟨fun n x hx => by have := hdepth n x hx; omega,
        fun n d hx m hm => ⟨hkeys n d hx m hm, hvalues n d hx m hm⟩⟩
    refine ⟨_, (inspect_eq_ok _).2 ⟨hp, rfl⟩, ?_⟩
    rw [if_neg (by omega)]
    rfl

end

namespace Sample

def barMembers : List (String × Value) := [("mark", .str "bar")]

/-- The text `{"mark": "bar"}`. -/
def barText : List UInt8 :=
  [0x7b, 0x22, 0x6d, 0x61, 0x72, 0x6b, 0x22, 0x3a, 0x20, 0x22, 0x62, 0x61, 0x72, 0x22, 0x7d]

def dumpsBar : Value → Result (List UInt8)
  | .dict [("mark", .str "bar")] => .ok barText
  | _ => Value.typeError "Object is not JSON serializable"

def loadsBar (encoded : List UInt8) : Result Value :=
  if encoded = barText then .ok (.dict barMembers) else valueError "Expecting value"

end Sample

theorem chart_accepted_iff_bar :
    validateVegaLiteSpecification Sample.dumpsBar Sample.loadsBar (.dict Sample.barMembers) =
      .ok (.dict Sample.barMembers) := by
  have hinspect : inspect 0 0 (.dict Sample.barMembers) = .ok 0 := rfl
  obtain ⟨hp, hrows⟩ := (inspect_eq_ok _).1 hinspect
  refine (chart_accepted_iff ⟨rfl, if_pos rfl⟩ (by decide) ⟨"mark", by decide, by decide⟩ _).2
    ⟨rfl, fun n d hx m hm => (hp.members n d hx m hm).1, fun n x hx => ?_,
      fun n d hx m hm => (hp.members n d hx m hm).2, by omega⟩
  have := hp.shallow n x hx
  omega

end TracciaRuntime
