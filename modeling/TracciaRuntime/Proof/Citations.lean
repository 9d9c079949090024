/-
  What a passed verification says of the citations in a text.

  * `Cites`: a marker of the text names an identifier; `mem_markers`: all of them are found;
  * `verify_passed`: what passes;
  * `citations_iff`: no invented identifier passes, exactly if there are citations or the text
    has no marker.
-/
import TracciaRuntime.Verification.Verifiers

namespace TracciaRuntime

open Py Text

namespace CitationVerifier

/-! ## Markers -/

/-- A marker `[S…]` of the text names the identifier. -/
def Cites (text id : String) : Prop :=
  ∃ a ds b, text.toList = a ++ '[' :: id.toList ++ ']' :: b ∧ id.toList = 'S' :: ds ∧ ds ≠ [] ∧
    ∀ d ∈ ds, isDecimal d = true

theorem mem_ends_marker {p q : Pos} : q ∈ marker.ends p ↔ ∃ ds, ds ≠ [] ∧
    (∀ d ∈ ds, isDecimal d = true) ∧ p.Reads ('[' :: 'S' :: ds ++ [']']) q := by
  unfold marker Regex.plus
  simp only [Regex.mem_ends_seq, Regex.mem_ends_word, Regex.mem_ends_rep_char]
  constructor
  · rintro ⟨m, hm, m', ⟨ds, hds, hall, hlen, -⟩, hq⟩
    refine ⟨ds, List.ne_nil_of_length_pos hlen, hall, ?_⟩
    exact (hm.trans hds).trans hq
  · rintro ⟨ds, hne, hall, h⟩
    obtain ⟨m, hm, h⟩ := Pos.reads_append.1 (show p.Reads (['[', 'S'] ++ (ds ++ [']'])) q from h)
    obtain ⟨m', hm', hq⟩ := Pos.reads_append.1 h
    exact ⟨m, hm, m', ⟨ds, hm', hall, List.length_pos_of_ne_nil hne, by simp⟩, hq⟩

/-- A bracket opens a match, and there is no other in it. -/
theorem isolated_marker : marker.Isolated := by
  intro p q w u m hq hw hu hne hlt
  obtain ⟨ds, -, hall, hread⟩ := mem_ends_marker.1 hq
  obtain rfl := hread.word_unique hw
  rw [List.eq_nil_iff_forall_not_mem]
  intro q' hq'
  obtain ⟨ds', -, -, hread'⟩ := mem_ends_marker.1 hq'
  have hsplit := hw.1.symm.trans hu.1
  rw [hread'.1] at hsplit
  obtain ⟨c, u, rfl⟩ := List.exists_cons_of_ne_nil hne
  obtain ⟨-, hsplit⟩ := List.cons.inj hsplit
  have hlt' : u.length < ('S' :: ds ++ [']']).length := Nat.lt_of_succ_lt_succ hlt
  have hget : ('S' :: ds ++ [']'])[u.length]? = some '[' := by
    rw [← @List.getElem?_append_left _ _ q.rest _ hlt']
    rw [show ('S' :: ds ++ [']']) ++ q.rest = _ from hsplit]
    simp
  have hmem := List.mem_of_getElem? hget
  simp only [List.cons_append, List.mem_cons, List.mem_append, List.not_mem_nil, or_false] at hmem
  rcases hmem with h | h | h
  · cases h
  · exact absurd (hall _ h) (by decide)
  · cases h

/-- The group of a match. -/
theorem group_marker {ds : List Char} : ('[' :: 'S' :: ds ++ [']']).tail.dropLast = 'S' :: ds :=
  (List.dropLast_concat : ('S' :: ds ++ [']']).dropLast = _)

/-- The digits end before the bracket. -/
theorem takeWhile_decimal {ds b : List Char} (h : ∀ d ∈ ds, isDecimal d = true) :
    (ds ++ ']' :: b).takeWhile isDecimal = ds := by
  rw [List.takeWhile_append_of_pos h, List.takeWhile_cons_of_neg (by decide), List.append_nil]

/-- **All markers are found.** -/
theorem mem_markers {text id : String} : id ∈ markers text ↔ Cites text id := by
  simp only [markers, Regex.findall, List.mem_map, List.mem_filterMap, Sum.getRight?_eq_some_iff,
    exists_eq_right]
  constructor
  · rintro ⟨w, hw, rfl⟩
    obtain ⟨u, p, q, hu, hq, rfl⟩ := Regex.exists_of_mem_pieces hw
    obtain ⟨ds, hne, hall, hread⟩ := mem_ends_marker.1 (List.mem_of_mem_head? hq)
    rw [hread.between, group_marker]
    refine ⟨u, ds, q.rest, ?_, String.toList_ofList, hne, hall⟩
    rw [show text.toList = _ from hu.1, hread.1, String.toList_ofList]
    simp
  · rintro ⟨a, ds, b, htext, hid, hne, hall⟩
    obtain ⟨p, hu, hrest⟩ : ∃ p, Pos.Reads ⟨none, text.toList⟩ a p ∧
        p.rest = '[' :: 'S' :: ds ++ [']'] ++ b :=
      ⟨⟨a.getLast?.or none, _⟩, ⟨by rw [htext, hid]; simp, rfl⟩, rfl⟩
    have hmatch : ⟨('[' :: 'S' :: ds ++ [']']).getLast?.or p.prev, b⟩ ∈ marker.ends p :=
      mem_ends_marker.2 ⟨ds, hne, hall, hrest, rfl⟩
    obtain ⟨q, hq⟩ := Option.isSome_iff_exists.1 (List.isSome_head?.2 (List.ne_nil_of_mem hmatch))
    obtain ⟨ds', -, hall', hread⟩ := mem_ends_marker.1 (List.mem_of_mem_head? hq)
    obtain rfl : ds' = ds := by
      have h := hread.1.symm.trans hrest
      simp only [List.cons_append, List.append_assoc, List.singleton_append, List.cons.injEq,
        true_and] at h
      rw [← takeWhile_decimal hall', h, takeWhile_decimal hall]
    have hlen := hread.rest_length
    refine ⟨_, Regex.mem_pieces isolated_marker hu (Nat.zero_le _) hq (by simp at hlen; omega), ?_⟩
    rw [hread.between, group_marker, ← hid, String.ofList_toList]

/-! ## Verifications -/

variable {value : String} {citations : List Citation}

/-- **What passes**: a text without citations, or one whose markers are known, some at least. -/
theorem verify_passed : (verify value citations).passed = true ↔ citations = [] ∨
    (∀ id, Cites value id → ∃ c ∈ citations, c.id = id) ∧ ∃ c ∈ citations, Cites value c.id := by
  have hunknown : ((markers value).dedup.filter (· ∉ (citations.map (·.id)).dedup)) = [] ↔
      ∀ id, Cites value id → ∃ c ∈ citations, c.id = id := by
    simp [List.filter_eq_nil_iff, mem_markers]
  have hused : ((markers value).dedup.filter (· ∈ (citations.map (·.id)).dedup)) = [] ↔
      ¬∃ c ∈ citations, Cites value c.id := by
    rw [List.filter_eq_nil_iff]
    constructor
    · rintro h ⟨c, hc, hcites⟩
      exact h c.id (List.mem_dedup.2 (mem_markers.2 hcites)) (by simpa using ⟨c, hc, rfl⟩)
    · intro h id hid hknown
      obtain ⟨c, hc, rfl⟩ : ∃ c ∈ citations, c.id = id := by simpa using hknown
      exact h ⟨c, hc, mem_markers.1 (List.mem_dedup.1 hid)⟩
  unfold verify
  split_ifs with hnil
  · simp [hnil]
  · simp only [hnil, false_or]
    split_ifs with h₁ h₂
    · simp only [Bool.false_eq_true, false_iff]
      exact fun h => h₁ (hunknown.2 h.1)
    · simp only [Bool.false_eq_true, false_iff]
      exact fun h => hused.1 h₂ h.2
    · simp only [true_iff]
      exact ⟨hunknown.1 (not_not.1 h₁), not_not.1 (mt hused.2 h₂)⟩

/-- **No invented citation passes**, and some citation is used if there are any, exactly if there
    are citations or the text has no marker. -/
theorem citations_iff (value : String) (citations : List Citation) :
    ((verify value citations).passed = true →
      (∀ id, Cites value id → ∃ c ∈ citations, c.id = id) ∧
      (citations ≠ [] → ∃ c ∈ citations, Cites value c.id)) ↔
    citations ≠ [] ∨ ∀ id, ¬Cites value id := by
  rw [verify_passed]
  constructor
  · intro h
    by_cases hnil : citations = []
    · refine .inr fun id hid => ?_
      obtain ⟨c, hc, -⟩ := (h (.inl hnil)).1 id hid
      rw [hnil] at hc
      cases hc
    · exact .inl hnil
  · rintro (hne | hquiet) (hnil | ⟨hknown, hsome⟩)
    · exact absurd hnil hne
    · exact ⟨hknown, fun _ => hsome⟩
    · exact ⟨fun id hid => absurd hid (hquiet id), fun hne => absurd hnil hne⟩
    · exact ⟨hknown, fun _ => hsome⟩

/-- Nothing was retrieved, and `[S9]` is confirmed. -/
theorem citations_not_always :
    ¬∀ (value : String) (citations : List Citation), (verify value citations).passed = true →
      (∀ id, Cites value id → ∃ c ∈ citations, c.id = id) ∧
      (citations ≠ [] → ∃ c ∈ citations, Cites value c.id) := by
  intro h
  obtain ⟨c, hc, -⟩ := (h "Answer [S9]." [] rfl).1 "S9"
    ⟨"Answer ".toList, ['9'], ['.'], by decide, by decide, by decide, List.forall_mem_singleton.2 (by decide)⟩
  cases hc

end CitationVerifier

end TracciaRuntime
