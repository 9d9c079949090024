/-
  When the evaluation of a golden question ends with an exception.

  * `Leads`: the value that a path leads to; `OutOfRange`: the path asks a list for an item that it
    does not have;
  * `raises_measure`: an expectation raises what the check does not catch exactly if its path is out
    of range or leads to an integer that is no double;
  * `evaluation_returns_iff`: an evaluation returns exactly if no such expectation is reached.
-/
import TracciaRuntime.Evaluation.Runner

namespace TracciaRuntime

open Py

variable {lib : EvaluationLib} {v w : Value} {part : String} {parts : List String}

/-! ## Paths -/

/-- The path leads from the one value to the other, by keys and by indices. -/
inductive Leads : Value → List String → Value → Prop
  | nil {v : Value} : Leads v [] v
  | key {d : Dict String Value} {part : String} {parts : List String} {v w : Value}
      (hv : d.get part = some v) (h : Leads v parts w) : Leads (.dict d) (part :: parts) w
  | index {xs : List Value} {part : String} {parts : List String} {i : Int} {v w : Value}
      (hi : Py.int part = some i) (hv : itemAt xs i = some v) (h : Leads v parts w) :
      Leads (.list xs) (part :: parts) w

/-- The path leads to a list and goes on with an index that the list does not have. -/
def OutOfRange (v : Value) (parts : List String) : Prop :=
  ∃ before part rest xs i, parts = before ++ part :: rest ∧ Leads v before (.list xs) ∧
    Py.int part = some i ∧ itemAt xs i = none

theorem leads_cons : Leads v (part :: parts) w ↔
    ∃ v', stepInto v part = .ok v' ∧ Leads v' parts w := by
  constructor
  · rintro (_ | ⟨hv, h⟩ | ⟨hi, hv, h⟩)
    · exact ⟨_, by simp [stepInto, Value.subscript, hv], h⟩
    · exact ⟨_, by simp [stepInto, hi, hv], h⟩
  · rintro ⟨v', hstep, h⟩
    cases v with
    | dict d => exact .key (elim_eq_ok.1 hstep) h
    | list xs =>
      unfold stepInto at hstep
      dsimp only at hstep
      split at hstep
      · cases hstep
      · rename_i i hi
        exact .index hi (elim_eq_ok.1 hstep) h
    | _ => cases hstep

/-- **A path that is followed** leads to its value. -/
theorem follow_ok : follow v parts = .ok w ↔ Leads v parts w := by
  induction parts generalizing v with
  | nil =>
    constructor
    · intro h
      cases h
      exact .nil
    · rintro ⟨⟩
      rfl
  | cons part parts ih =>
    rw [follow, List.foldlM_cons, bind_eq_ok, leads_cons]
    exact exists_congr fun v' => and_congr_right fun _ => ih

/-- The exceptions that a numeric check does not catch. -/
def Uncaught (e : Error) : Prop := e.type ∉ EvaluationLib.caught

theorem not_uncaught {kind : ErrorType} {text : String} (h : kind ∈ EvaluationLib.caught) :
    ¬Uncaught ⟨kind, text⟩ := fun hu => hu h

theorem uncaught {kind : ErrorType} {text : String} (h : kind ∉ EvaluationLib.caught) :
    Uncaught ⟨kind, text⟩ := h

theorem raises_elim {α : Type} {x : Option α} {e : Error} {P : Error → Prop} :
    Raises P (x.elim (.error e) Except.ok) ↔ x = none ∧ P e := by
  cases x <;> simp

theorem raises_stepInto : Raises Uncaught (stepInto v part) ↔
    ∃ xs i, v = .list xs ∧ Py.int part = some i ∧ itemAt xs i = none := by
  have hothers : ∀ {text : String}, ¬Raises Uncaught (Value.typeError (α := Value) text) :=
    fun h => not_uncaught (by decide) (raises_error.1 h)
  cases v with
  | list xs =>
    unfold stepInto
    dsimp only
    split
    · rename_i hi
      rw [raises_error]
      refine ⟨fun h => absurd h (not_uncaught (by decide)), ?_⟩
      rintro ⟨xs', i, -, hi', -⟩
      rw [hi] at hi'
      cases hi'
    · rename_i i hi
      rw [raises_elim]
      constructor
      · exact fun h => ⟨xs, i, rfl, hi, h.1⟩
      · rintro ⟨xs', i', hxs, hi', hnone⟩
        cases hxs
        rw [hi] at hi'
        cases hi'
        exact ⟨hnone, uncaught (by decide)⟩
  | dict d =>
    refine ⟨fun h => ?_, fun ⟨_, _, h, _⟩ => nomatch h⟩
    exact absurd (raises_elim.1 h).2 (not_uncaught (by decide))
  | _ => exact ⟨fun h => absurd h hothers, fun ⟨_, _, h, _⟩ => nomatch h⟩

/-- **A path raises what is not caught** exactly if it is out of range. -/
theorem raises_follow : Raises Uncaught (follow v parts) ↔ OutOfRange v parts := by
  induction parts generalizing v with
  | nil =>
    refine ⟨fun h => absurd h not_raises_ok, ?_⟩
    rintro ⟨before, part, rest, xs, i, h, -⟩
    exact absurd h.symm (List.append_ne_nil_of_right_ne_nil _ (List.cons_ne_nil _ _))
  | cons part parts ih =>
    rw [follow, List.foldlM_cons, raises_bind, raises_stepInto]
    constructor
    · rintro (⟨xs, i, rfl, hi, hnone⟩ | ⟨v', hv', h⟩)
      · exact ⟨[], part, parts, xs, i, rfl, .nil, hi, hnone⟩
      · obtain ⟨before, part', rest, xs, i, rfl, hleads, hi, hnone⟩ := ih.1 h
        exact ⟨part :: before, part', rest, xs, i, rfl, leads_cons.2 ⟨v', hv', hleads⟩, hi, hnone⟩
    · rintro ⟨before, part', rest, xs, i, hparts, hleads, hi, hnone⟩
      cases before with
      | nil =>
        cases hparts
        cases hleads
        exact .inl ⟨xs, i, rfl, hi, hnone⟩
      | cons p before =>
        cases hparts
        obtain ⟨v', hv', hleads⟩ := leads_cons.1 hleads
        exact .inr ⟨v', hv', ih.2 ⟨before, part', rest, xs, i, rfl, hleads, hi, hnone⟩⟩

/-! ## Checks -/

/-- The value is an integer that rounds to no double. -/
def TooLarge (w : Value) : Prop := ∃ n : Int, w = .int n ∧ EvaluationLib.maxInt < n.natAbs

theorem raises_float : Raises Uncaught (lib.float w) ↔ TooLarge w := by
  cases w with
  | int n =>
    unfold EvaluationLib.float
    dsimp only
    split_ifs with h
    · refine ⟨fun h => absurd h not_raises_ok, ?_⟩
      rintro ⟨n', hn, hlarge⟩
      cases hn
      omega
    · rw [raises_error]
      exact ⟨fun _ => ⟨n, rfl, not_le.1 h⟩, fun _ => uncaught (by decide)⟩
  | str s =>
    refine ⟨fun h => ?_, fun ⟨_, h, _⟩ => nomatch h⟩
    exact absurd (raises_elim.1 h).2 (not_uncaught (by decide))
  | bool | float | nan | infinity =>
    exact ⟨fun h => absurd h not_raises_ok, fun ⟨_, h, _⟩ => nomatch h⟩
  | null | list | dict =>
    refine ⟨fun h => ?_, fun ⟨_, h, _⟩ => nomatch h⟩
    exact absurd (raises_error.1 h) (not_uncaught (by decide))

variable {values : Dict String Value} {x : NumericExpectation} {xs : List NumericExpectation}

/-- The expectation is out of range, or about an integer that is no double. -/
def Aborts (values : Dict String Value) (x : NumericExpectation) : Prop :=
  OutOfRange (.dict values) x.parts ∨ ∃ w, Leads (.dict values) x.parts w ∧ TooLarge w

/-- The path of the expectation leads to a value that `float` converts. -/
def Measured (lib : EvaluationLib) (values : Dict String Value) (x : NumericExpectation) : Prop :=
  ∃ w a, Leads (.dict values) x.parts w ∧ lib.float w = .ok a

theorem measure_ok : (∃ a, lib.measure values x = .ok a) ↔ Measured lib values x := by
  simp only [EvaluationLib.measure, bind_eq_ok, follow_ok, Measured]
  exact exists_comm

theorem raises_measure : Raises Uncaught (lib.measure values x) ↔ Aborts values x := by
  simp only [EvaluationLib.measure, raises_bind, raises_follow, raises_float, follow_ok, Aborts]

/-- **The check of some expectations** returns exactly if none that is reached aborts. -/
theorem numericCheck_ok {numeric : Bool} : (∃ b, lib.numericCheck values numeric xs = .ok b) ↔
    ∀ before x rest, xs = before ++ x :: rest → (∀ y ∈ before, Measured lib values y) →
      ¬Aborts values x := by
  induction xs generalizing numeric with
  | nil =>
    refine ⟨fun _ before x rest h => ?_, fun _ => ⟨numeric, rfl⟩⟩
    exact absurd h.symm (List.append_ne_nil_of_right_ne_nil _ (List.cons_ne_nil _ _))
  | cons x xs ih =>
    -- the first expectation aborts, or is measured and the others decide, or fails the check
    have hfirst : (∀ before y rest, x :: xs = before ++ y :: rest →
          (∀ z ∈ before, Measured lib values z) → ¬Aborts values y) ↔
        ¬Aborts values x ∧ (Measured lib values x → ∀ before y rest, xs = before ++ y :: rest →
          (∀ z ∈ before, Measured lib values z) → ¬Aborts values y) := by
      constructor
      · refine fun h => ⟨h [] x xs rfl (List.forall_mem_nil _), fun hx before y rest hxs hb => ?_⟩
        exact h (x :: before) y rest (by rw [hxs]; rfl) (List.forall_mem_cons.2 ⟨hx, hb⟩)
      · rintro ⟨hx, h⟩ before y rest hxs hb
        cases before with
        | nil =>
          cases hxs
          exact hx
        | cons z before =>
          cases hxs
          obtain ⟨hz, hb⟩ := List.forall_mem_cons.1 hb
          exact h hz before y rest rfl hb
    rw [hfirst, ← raises_measure, ← measure_ok]
    unfold EvaluationLib.numericCheck
    split
    · rename_i actual hactual
      rw [hactual]
      simp only [not_raises_ok, not_false_eq_true, true_and, Except.ok.injEq, exists_eq', true_imp_iff]
      exact ih
    · rename_i e he
      rw [he]
      split_ifs with hcaught
      · simp [hcaught, Uncaught]
      · simp [hcaught, Uncaught]

/-- An expectation that is not measured fails the check. -/
theorem numericCheck_false {numeric b : Bool} (h : lib.numericCheck values numeric xs = .ok b)
    (hx : ∃ x ∈ xs, ¬Measured lib values x) : b = false := by
  induction xs generalizing numeric with
  | nil =>
    obtain ⟨x, hx, -⟩ := hx
    cases hx
  | cons x xs ih =>
    unfold EvaluationLib.numericCheck at h
    split at h
    · rename_i actual hactual
      refine ih h ?_
      obtain ⟨y, hy, hn⟩ := hx
      rcases List.mem_cons.1 hy with rfl | hy
      · exact absurd (measure_ok.1 ⟨actual, hactual⟩) hn
      · exact ⟨y, hy, hn⟩
    · split_ifs at h
      cases h
      rfl

/-- What an evaluation shows of its numeric check. -/
theorem evaluate_ok {case : GoldenQuestion} {artifact : EvaluationArtifact} {r : CaseEvaluation}
    (h : lib.evaluate case artifact = .ok r) : r.caseId = case.id ∧
      ∃ b, lib.numericCheck artifact.values true case.numericExpectations = .ok b ∧
        ("numeric", b) ∈ r.checks := by
  obtain ⟨b, hb, h⟩ := bind_eq_ok.1 h
  cases h
  exact ⟨rfl, b, hb, by simp⟩

theorem exists_evaluate {case : GoldenQuestion} {artifact : EvaluationArtifact} :
    (∃ r, lib.evaluate case artifact = .ok r) ↔
      ∃ b, lib.numericCheck artifact.values true case.numericExpectations = .ok b := by
  constructor
  · rintro ⟨r, hr⟩
    obtain ⟨-, b, hb, -⟩ := evaluate_ok hr
    exact ⟨b, hb⟩
  · rintro ⟨b, hb⟩
    exact ⟨_, bind_eq_ok.2 ⟨b, hb, rfl⟩⟩

/-- No expectation that is reached is out of range or about an integer that is no double. -/
def Evaluable (lib : EvaluationLib) (case : GoldenQuestion) (artifact : EvaluationArtifact) : Prop :=
  ∀ before x rest, case.numericExpectations = before ++ x :: rest →
    (∀ y ∈ before, Measured lib artifact.values y) → ¬Aborts artifact.values x

/-- An evaluation returns, with a failed numeric check for a path that does not exist, exactly if
    its case is evaluable, and a run evaluates all cases exactly if all are. -/
theorem evaluation_returns_iff (lib : EvaluationLib) :
    (∀ case artifact, (∃ r, lib.evaluate case artifact = .ok r ∧
        ((∃ x ∈ case.numericExpectations, ∀ w, ¬Leads (.dict artifact.values) x.parts w) →
          ("numeric", false) ∈ r.checks)) ↔
      Evaluable lib case artifact) ∧
    ∀ (cases : List GoldenQuestion) (artifact : GoldenQuestion → EvaluationArtifact),
      (∃ rs, lib.results cases (fun case => .ok (artifact case)) = .ok rs ∧
        rs.map (·.caseId) = cases.map (·.id)) ↔
      ∀ case ∈ cases, Evaluable lib case (artifact case) := by
  have hcase : ∀ case artifact, (∃ r, lib.evaluate case artifact = .ok r) ↔
      Evaluable lib case artifact := fun case artifact => exists_evaluate.trans numericCheck_ok
  refine ⟨fun case artifact => ?_, fun cases artifact => ⟨?_, fun h => ?_⟩⟩
  · rw [← hcase]
    refine exists_congr fun r => and_iff_left_of_imp fun hr hmissing => ?_
    obtain ⟨-, b, hb, hmem⟩ := evaluate_ok hr
    obtain ⟨x, hx, hn⟩ := hmissing
    rwa [numericCheck_false hb ⟨x, hx, fun ⟨w, _, hw, _⟩ => hn w hw⟩] at hmem
  · rintro ⟨rs, hrs, -⟩ case hmem
    obtain ⟨r, -, hr⟩ := exists_of_mem_left (mapM_eq_ok.1 hrs) hmem
    exact (hcase case _).1 ⟨r, hr⟩
  · have heach : ∀ case ∈ cases, ∃ r, lib.evaluate case (artifact case) = .ok r :=
      fun case hmem => (hcase case _).2 (h case hmem)
    obtain ⟨rs, hrs⟩ := exists_mapM heach
    exact ⟨rs, hrs, map_of_mapM hrs fun case _ r hr => (evaluate_ok hr).1⟩

/-- A library that knows decimal digits only. -/
def plainLib : EvaluationLib where
  search _ _ := false
  lower s := s
  round n := n
  parse s := (Py.int s).map fun n => .finite n
  isclose a b _ _ := a = b

/-- The first row of no rows. -/
theorem evaluation_not_always :
    ¬∀ (lib : EvaluationLib) (case : GoldenQuestion) (artifact : EvaluationArtifact),
      ∃ r, lib.evaluate case artifact = .ok r := by
  intro h
  let x : NumericExpectation := { path := "rows.0", expected := .finite 1 }
  let case : GoldenQuestion :=
    { id := "q", question := "How many?", numericExpectations := [x] }
  obtain ⟨r, hr⟩ := h plainLib case ⟨[], [], [("rows", .list [])], []⟩
  have hindex : plainLib.measure [("rows", .list [])] x =
      .error ⟨.index, "list index out of range"⟩ := by decide +kernel
  have hcheck := bind_eq_ok.1 hr
  obtain ⟨b, hb, -⟩ := hcheck
  rw [EvaluationLib.numericCheck, hindex] at hb
  cases hb

end TracciaRuntime
