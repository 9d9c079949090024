/-
  What sanitising leaves of a document.

  * `Tidy`: the lines of a text in normal form are words with single spaces between them;
  * `normalizeDocumentText_eq`, `sanitizeUntrustedText_eq`: normal form and sanitising, line by
    line; `normalize_sanitize`: what sanitising returns is in normal form;
  * `occurs_joinLines`, `occurs_roleImpersonation`: what is found in a text of tidy lines;
  * `sanitized_clean_iff`: a sanitised text has no findings, exactly if no line with the name of a
    role comes before a colon once the lines between them are gone.
-/
import TracciaRuntime.Security.Documents
import TracciaRuntime.Text.Languages
import TracciaRuntime.Text.Locality

namespace TracciaRuntime

open Py Text

/-! ## Tidy lines -/

section
variable {l s : List Char} {ls : List (List Char)} {c : Char}

/-- The words of a line: not empty, and without spaces. -/
def Words (ws : List (List Char)) : Prop := ∀ w ∈ ws, w ≠ [] ∧ ∀ c ∈ w, isSpace c = false

/-- The line consists of words, with single spaces between them. -/
def Tidy (l : List Char) : Prop := ∃ ws, Words ws ∧ l = [' '].intercalate ws

/-- The parts between the characters of a class. -/
theorem of_mem_splitOnP {p : Char → Bool} {w : List Char} (hw : w ∈ s.splitOnP p) (hc : c ∈ w) :
    p c = false ∧ c ∈ s := by
  induction s generalizing w with
  | nil =>
    rw [List.splitOnP_nil, List.mem_singleton] at hw
    rw [hw] at hc
    cases hc
  | cons d s ih =>
    rw [List.splitOnP_cons_eq_if_modifyHead] at hw
    split_ifs at hw with hd
    · rcases List.mem_cons.1 hw with rfl | hw
      · cases hc
      · exact (ih hw hc).imp_right (List.mem_cons_of_mem _)
    · obtain ⟨w', ws, hws⟩ := List.exists_cons_of_ne_nil (List.splitOnP_ne_nil p s)
      rw [hws, List.modifyHead_cons] at hw
      rw [hws] at ih
      rcases List.mem_cons.1 hw with rfl | hw
      · rcases List.mem_cons.1 hc with rfl | hc
        · exact ⟨by simpa using hd, List.mem_cons_self⟩
        · exact (ih List.mem_cons_self hc).imp_right (List.mem_cons_of_mem _)
      · exact (ih (List.mem_cons_of_mem _ hw) hc).imp_right (List.mem_cons_of_mem _)

theorem words_splitWords : Words (splitWords s) := by
  intro w hw
  rw [splitWords, List.mem_filter, decide_eq_true_eq] at hw
  exact ⟨hw.2, fun c hc => (of_mem_splitOnP hw.1 hc).1⟩

theorem tidy_joinWords : Tidy (joinWords s) := ⟨_, words_splitWords, rfl⟩

theorem splitWords_intercalate {ws : List (List Char)} (h : Words ws) :
    splitWords ([' '].intercalate ws) = ws := by
  induction ws with
  | nil => rfl
  | cons w ws ih =>
    obtain ⟨⟨hne, hw⟩, h⟩ := List.forall_mem_cons.1 h
    cases ws with
    | nil =>
      rw [List.intercalate_singleton, splitWords, List.splitOnP_eq_singleton hw]
      simp [hne]
    | cons w' ws =>
      have ih := ih h
      rw [splitWords] at ih ⊢
      rw [List.intercalate_cons_cons, List.append_assoc, List.singleton_append,
        List.splitOnP_append_cons_of_forall_mem hw _ (by decide),
        List.filter_cons_of_pos (by simpa using hne), ih]

/-- **A tidy line** is in normal form. -/
theorem Tidy.joinWords (h : Tidy l) : joinWords l = l := by
  obtain ⟨ws, hws, rfl⟩ := h
  rw [TracciaRuntime.joinWords, splitWords_intercalate hws]

theorem Tidy.head (h : Tidy l) : ∀ c ∈ l.head?, isSpace c = false := by
  obtain ⟨ws, hws, rfl⟩ := h
  cases ws with
  | nil => simp
  | cons w ws =>
    obtain ⟨hne, hw⟩ := hws w List.mem_cons_self
    obtain ⟨d, w, rfl⟩ := List.exists_cons_of_ne_nil hne
    rw [List.intercalate_cons_cons_left]
    rintro c ⟨⟩
    exact hw d List.mem_cons_self

theorem Tidy.last (h : Tidy l) : ∀ c ∈ l.getLast?, isSpace c = false := by
  obtain ⟨ws, hws, rfl⟩ := h
  induction ws with
  | nil => simp
  | cons w ws ih =>
    obtain ⟨⟨hne, hw⟩, hws⟩ := List.forall_mem_cons.1 hws
    cases ws with
    | nil =>
      rw [List.intercalate_singleton]
      exact fun c hc => hw c (List.mem_of_mem_getLast? hc)
    | cons w' ws =>
      obtain ⟨d, w', rfl⟩ := List.exists_cons_of_ne_nil (hws w' List.mem_cons_self).1
      rw [List.intercalate_cons_cons, List.getLast?_append]
      intro c hc
      refine ih hws c ?_
      rw [List.intercalate_cons_cons_left, List.getLast?_cons] at hc ⊢
      exact hc

/-- The only spaces of a tidy line are blanks. -/
theorem Tidy.eq_of_isSpace (h : Tidy l) (hc : c ∈ l) (hs : isSpace c = true) : c = ' ' := by
  obtain ⟨ws, hws, rfl⟩ := h
  induction ws with
  | nil => cases hc
  | cons w ws ih =>
    obtain ⟨⟨-, hw⟩, hws⟩ := List.forall_mem_cons.1 hws
    have hne : c ∉ w := fun hmem => by
      rw [hw c hmem] at hs
      cases hs
    cases ws with
    | nil =>
      rw [List.intercalate_singleton] at hc
      exact absurd hc hne
    | cons w' ws =>
      rw [List.intercalate_cons_cons, List.mem_append, List.mem_append] at hc
      rcases hc with (hc | hc) | hc
      · exact absurd hc hne
      · exact List.mem_singleton.1 hc
      · exact ih hws hc

theorem isSpace_of_isLineBreak (h : isLineBreak c = true) : isSpace c = true ∧ c ≠ ' ' := by
  have key : ['\n', '\r', '\x0b', '\x0c', '\x1c', '\x1d', '\x1e', '\u0085', '\u2028',
      '\u2029'].all (fun c => isSpace c && c != ' ') = true := by decide
  simpa only [Bool.and_eq_true, bne_iff_ne] using List.all_eq_true.1 key c (of_decide_eq_true h)

theorem Tidy.not_isLineBreak (h : Tidy l) (hc : c ∈ l) : isLineBreak c = false := by
  by_contra hn
  obtain ⟨hs, hne⟩ := isSpace_of_isLineBreak (by simpa using hn)
  exact hne (h.eq_of_isSpace hc hs)

/-- Lines that are tidy, the first and the last of them not blank. -/
structure Trimmed (ls : List (List Char)) : Prop where
  tidy : ∀ l ∈ ls, Tidy l
  head : ls.head? ≠ some []
  last : ls.getLast? ≠ some []

theorem head?_dropWhile_blank : (ls.dropWhile (· = [])).head? ≠ some [] := by
  intro h
  have := List.head?_dropWhile_not (fun l : List Char => decide (l = [])) ls
  rw [h] at this
  simp at this

theorem prefixed_trimLines (ls : List (List Char)) : trimLines ls <+: ls.dropWhile (· = []) := by
  rw [trimLines, ← List.reverse_suffix, List.reverse_reverse]
  exact List.dropWhile_suffix _

theorem mem_trimLines (h : l ∈ trimLines ls) : l ∈ ls :=
  (List.dropWhile_suffix _).subset ((prefixed_trimLines ls).subset h)

theorem trimmed_trimLines (h : ∀ l ∈ ls, Tidy l) : Trimmed (trimLines ls) where
  tidy l hl := h l (mem_trimLines hl)
  head := by
    intro hhead
    obtain ⟨t, ht⟩ := prefixed_trimLines ls
    refine @head?_dropWhile_blank ls ?_
    rw [← ht, List.head?_append, hhead]
    rfl
  last := by
    rw [trimLines, List.getLast?_reverse]
    exact head?_dropWhile_blank

theorem trimLines_of_trimmed (h : Trimmed ls) : trimLines ls = ls := by
  have hself : ∀ ls : List (List Char), ls.head? ≠ some [] → ls.dropWhile (· = []) = ls := by
    intro ls hls
    cases ls with
    | nil => rfl
    | cons l ls => exact List.dropWhile_cons_of_neg (by simpa using hls)
  rw [trimLines, hself ls h.head, hself _ (by rw [List.head?_reverse]; exact h.last),
    List.reverse_reverse]

/-- **Trimmed lines** can be read off their join, and stripping leaves it alone. -/
theorem Trimmed.splitlines (h : Trimmed ls) : splitlines (joinLines ls) = ls :=
  splitlines_joinLines (fun l hl _ hc => (h.tidy l hl).not_isLineBreak hc) h.last

theorem trim_of_tidy (h : ∀ l ∈ ls, Tidy l) : trim (joinLines ls) = joinLines (trimLines ls) :=
  trim_joinLines (fun l hl => (h l hl).head) (fun l hl => (h l hl).last)

/-! ## Characters -/

theorem mem_splitlines (hl : l ∈ splitlines s) (hc : c ∈ l) : c ∈ s := by
  induction s generalizing l with
  | nil => cases hl
  | cons d s ih =>
    rw [Py.splitlines] at hl
    split_ifs at hl
    · exact List.mem_cons_of_mem _ (ih hl hc)
    · rcases List.mem_cons.1 hl with rfl | hl
      · cases hc
      · exact List.mem_cons_of_mem _ (ih hl hc)
    · cases hs : Py.splitlines s with
      | nil =>
        rw [hs, consLine, List.mem_singleton] at hl
        rw [hl, List.mem_singleton] at hc
        exact hc ▸ List.mem_cons_self
      | cons l' ls =>
        rw [hs, consLine] at hl
        rw [hs] at ih
        rcases List.mem_cons.1 hl with rfl | hl
        · rcases List.mem_cons.1 hc with rfl | hc
          · exact List.mem_cons_self
          · exact List.mem_cons_of_mem _ (ih List.mem_cons_self hc)
        · exact List.mem_cons_of_mem _ (ih (List.mem_cons_of_mem _ hl) hc)

theorem mem_intercalate {b : Char} {ws : List (List Char)} (h : c ∈ [b].intercalate ws) :
    c = b ∨ ∃ w ∈ ws, c ∈ w := by
  induction ws with
  | nil => cases h
  | cons w ws ih =>
    cases ws with
    | nil =>
      rw [List.intercalate_singleton] at h
      exact .inr ⟨w, List.mem_cons_self, h⟩
    | cons w' ws =>
      rw [List.intercalate_cons_cons, List.mem_append, List.mem_append] at h
      rcases h with (h | h) | h
      · exact .inr ⟨w, List.mem_cons_self, h⟩
      · exact .inl (List.mem_singleton.1 h)
      · refine (ih h).imp_right fun ⟨w, hw, hc⟩ => ⟨w, List.mem_cons_of_mem _ hw, hc⟩

theorem mem_joinWords (hc : c ∈ joinWords s) : c = ' ' ∨ c ∈ s := by
  refine (mem_intercalate hc).imp_right fun ⟨w, hw, hc⟩ => ?_
  exact (of_mem_splitOnP (List.mem_of_mem_filter hw) hc).2

end

/-! ## Normal form -/

section
variable {u : Unicode} {text : List Char}

/-- The text without its invisible characters. -/
def visible (u : Unicode) (text : List Char) : List Char :=
  ((u.nfkc text).filter fun c => c ≠ '\x00').filter fun c => !u.format c

/-- The lines of the normal form. -/
def normalLines (u : Unicode) (text : List Char) : List (List Char) :=
  trimLines ((splitlines (visible u text)).map joinWords)

theorem trimmed_normalLines : Trimmed (normalLines u text) := by
  refine trimmed_trimLines fun l hl => ?_
  obtain ⟨s, -, rfl⟩ := List.mem_map.1 hl
  exact tidy_joinWords

/-- **The normal form**, line by line. -/
theorem normalizeDocumentText_eq : normalizeDocumentText u text = joinLines (normalLines u text) := by
  refine trim_of_tidy fun l hl => ?_
  obtain ⟨s, -, rfl⟩ := List.mem_map.1 hl
  exact tidy_joinWords

/-- The lines that sanitising keeps. -/
def keptLines (u : Unicode) (text : List Char) : List (List Char) :=
  trimLines ((normalLines u text).filter (isSafe u))

theorem trimmed_keptLines : Trimmed (keptLines u text) :=
  trimmed_trimLines fun l hl => trimmed_normalLines.tidy l (List.mem_of_mem_filter hl)

/-- **Sanitising**, line by line. -/
theorem sanitizeUntrustedText_eq :
    (sanitizeUntrustedText u text).1 = joinLines (keptLines u text) := by
  rw [sanitizeUntrustedText]
  dsimp only
  rw [normalizeDocumentText_eq, trimmed_normalLines.splitlines, keptLines]
  exact trim_of_tidy fun l hl => trimmed_normalLines.tidy l (List.mem_of_mem_filter hl)

/-- No invisible character is left. -/
theorem visible_sanitize {c : Char} (hc : c ∈ (sanitizeUntrustedText u text).1) :
    c ≠ '\x00' ∧ u.format c = false := by
  have hascii : ∀ c ∈ ['\n', ' '], c ≠ '\x00' ∧ u.format c = false := by
    exact List.forall_mem_cons.2 ⟨⟨by decide, u.format_ascii _ (by decide)⟩,
      List.forall_mem_singleton.2 ⟨by decide, u.format_ascii _ (by decide)⟩⟩
  rw [sanitizeUntrustedText_eq] at hc
  rcases mem_intercalate hc with rfl | ⟨l, hl, hc⟩
  · exact hascii _ (by simp)
  · obtain ⟨s, hs, rfl⟩ := List.mem_map.1 (mem_trimLines (List.mem_of_mem_filter (mem_trimLines hl)))
    rcases mem_joinWords hc with rfl | hc
    · exact hascii _ (by simp)
    · have hv := mem_splitlines hs hc
      simp only [visible, List.mem_filter, decide_eq_true_eq, Bool.not_eq_true'] at hv
      exact ⟨hv.1.2, hv.2⟩

/-- **What sanitising returns** is in normal form, if Unicode leaves it alone. -/
theorem normalize_sanitize
    (h : u.nfkc (sanitizeUntrustedText u text).1 = (sanitizeUntrustedText u text).1) :
    normalizeDocumentText u (sanitizeUntrustedText u text).1 = (sanitizeUntrustedText u text).1 := by
  have hvisible : visible u (sanitizeUntrustedText u text).1 = (sanitizeUntrustedText u text).1 := by
    rw [visible, h, List.filter_filter, List.filter_eq_self]
    intro c hc
    simpa using (visible_sanitize hc).symm
  have hmap : (keptLines u text).map joinWords = keptLines u text :=
    (List.map_congr_left fun l hl => (trimmed_keptLines.tidy l hl).joinWords).trans (List.map_id' _)
  rw [normalizeDocumentText_eq, normalLines, hvisible, sanitizeUntrustedText_eq,
    trimmed_keptLines.splitlines, hmap, trimLines_of_trimmed trimmed_keptLines]

end

/-! ## Patterns on one line -/

section
open Regex
variable {u : Unicode} {b : Char} {r : Regex} {ls : List (List Char)}

theorem blind_foldedWord {w : List Char} (h : fold b ∉ w) : (foldedWord w).Blind b := by
  induction w with
  | nil => trivial
  | cons c w ih =>
    rw [List.mem_cons, not_or] at h
    exact ⟨decide_eq_false h.1, ih h.2⟩

theorem proper_foldedWord {w : List Char} (h : w ≠ []) : (foldedWord w).Proper := by
  cases w with
  | nil => exact absurd rfl h
  | cons c w => exact proper_seq (.inl proper_char)

theorem blind_anyOf {rs : List Regex} (h : ∀ r ∈ rs, r.Blind b) : (anyOf rs).Blind b := by
  induction rs with
  | nil => rfl
  | cons r rs ih =>
    obtain ⟨hr, h⟩ := List.forall_mem_cons.1 h
    cases rs with
    | nil => exact hr
    | cons r' rs => exact ⟨hr, ih h⟩

theorem proper_anyOf {rs : List Regex} (h : ∀ r ∈ rs, r.Proper) : (anyOf rs).Proper := by
  rintro p q w hq hw
  obtain ⟨r, hr, hq⟩ := mem_ends_anyOf.1 hq
  exact h r hr p q w hq hw

theorem blind_anyWord {words : List String} (h : ∀ w ∈ words, fold b ∉ w.toList) :
    (anyWord words).Blind b := by
  refine blind_anyOf fun r hr => ?_
  obtain ⟨w, hw, rfl⟩ := List.mem_map.1 hr
  exact blind_foldedWord (h w hw)

theorem proper_anyWord {words : List String} (h : ∀ w ∈ words, w.toList ≠ []) :
    (anyWord words).Proper := by
  refine proper_anyOf fun r hr => ?_
  obtain ⟨w, hw, rfl⟩ := List.mem_map.1 hr
  exact proper_foldedWord (h w hw)

theorem blind_wordBoundary : (wordBoundary u).Blind '\n' := by
  have h : u.isWord '\n' = false := by
    rw [Unicode.isWord, u.alnum_ascii _ (by decide)]
    rfl
  intro o
  simp [h]

theorem blind_nearby {first second : Regex} {gap : Nat} (h : first.Blind '\n')
    (h' : second.Blind '\n') : (nearby u first gap second).Blind '\n' :=
  ⟨blind_wordBoundary, h, blind_wordBoundary, ⟨rfl, proper_char⟩, blind_wordBoundary, h',
    blind_wordBoundary⟩

theorem proper_nearby {first second : Regex} {gap : Nat} (h : first.Proper) :
    (nearby u first gap second).Proper :=
  proper_seq (.inr (proper_seq (.inl h)))

/-- **Every pattern but the last** sees single lines only. -/
theorem blind_of_mem {i : String × Regex} (hi : i ∈ injectionPatterns u) :
    (i.2.Blind '\n' ∧ i.2.Proper) ∨ i.2 = roleImpersonation := by
  have hword : ∀ words ∈ [["ignore", "disregard", "forget"],
      ["previous", "prior", "above", "system"], ["bypass", "override", "skip"],
      ["screen", "policy", "guardrail", "filter"], ["rank", "rate", "score", "select", "hire"],
      ["100", "maximum", "highest", "perfect", "candidate"],
      ["reveal", "print", "repeat", "expose"]],
      (anyWord words).Blind '\n' ∧ (anyWord words).Proper := by
    intro words hwords
    have h : ∀ words ∈ [["ignore", "disregard", "forget"],
        ["previous", "prior", "above", "system"], ["bypass", "override", "skip"],
        ["screen", "policy", "guardrail", "filter"], ["rank", "rate", "score", "select", "hire"],
        ["100", "maximum", "highest", "perfect", "candidate"],
        ["reveal", "print", "repeat", "expose"]],
        ∀ w ∈ words, fold '\n' ∉ w.toList ∧ w.toList ≠ [] := by
      decide
    exact ⟨blind_anyWord fun w hw => (h words hwords w hw).1,
      proper_anyWord fun w hw => (h words hwords w hw).2⟩
  have hexfiltration : (anyOf [foldedWord "system prompt".toList,
      .seq (foldedWord "hidden instruction".toList) (.opt (foldedWord "s".toList)),
      .seq (foldedWord "secret".toList) (.opt (foldedWord "s".toList))]).Blind '\n' :=
    ⟨blind_foldedWord (by decide), ⟨blind_foldedWord (by decide), blind_foldedWord (by decide),
      trivial⟩, blind_foldedWord (by decide), blind_foldedWord (by decide), trivial⟩
  simp only [injectionPatterns, List.mem_cons, List.not_mem_nil, or_false] at hi
  rcases hi with rfl | rfl | rfl | rfl | rfl
  · exact .inl ⟨blind_nearby (hword _ (by simp)).1 (hword _ (by simp)).1,
      proper_nearby (hword _ (by simp)).2⟩
  · exact .inl ⟨blind_nearby (hword _ (by simp)).1 (hword _ (by simp)).1,
      proper_nearby (hword _ (by simp)).2⟩
  · exact .inl ⟨blind_nearby (hword _ (by simp)).1 (hword _ (by simp)).1,
      proper_nearby (hword _ (by simp)).2⟩
  · exact .inl ⟨blind_nearby (hword _ (by simp)).1 hexfiltration,
      proper_nearby (hword _ (by simp)).2⟩
  · exact .inr rfl

/-- **A pattern that sees single lines only** is found in one of them. -/
theorem occurs_joinLines (hr : r.Blind '\n') (hp : r.Proper) :
    r.Occurs none (joinLines ls) ↔ ∃ l ∈ ls, r.Occurs none l := by
  induction ls with
  | nil =>
    refine iff_of_false ?_ (by simp)
    rw [show joinLines [] = [] from rfl, occurs_nil, not_not, List.eq_nil_iff_forall_not_mem]
    intro q hq
    have := hp.rest_lt hq
    cases this
  | cons l ls ih =>
    cases ls with
    | nil =>
      rw [joinLines, List.intercalate_singleton]
      simp
    | cons l' ls =>
      rw [joinLines_cons (List.cons_ne_nil _ _), occurs_append_cons hr, ih]
      simp only [List.mem_cons, exists_eq_or_imp]

end

/-! ## Roles -/

section
open Regex
variable {u : Unicode} {l w s t : List Char} {ls : List (List Char)}

/-- The name of a role, if case is ignored. -/
def IsRole (w : List Char) : Prop :=
  w.map fold ∈ ["system".toList, "assistant".toList, "developer".toList]

/-- Spaces, the name of a role, spaces and a colon. -/
def Calls (s : List Char) : Prop :=
  ∃ w t, s.dropWhile isSpace = w ++ t ∧ IsRole w ∧ (t.dropWhile isSpace).head? = some ':'

theorem IsRole.ne_nil (h : IsRole w) : w ≠ [] := by
  rintro rfl
  unfold IsRole at h
  exact absurd h (by decide)

theorem IsRole.not_isSpace (h : IsRole w) {c : Char} (hc : c ∈ w) : isSpace c = false := by
  have hletters : ∀ v ∈ ["system".toList, "assistant".toList, "developer".toList],
      v.all (fun c => 'a' ≤ c && c ≤ 'z') = true := by decide
  have := fold_range (List.all_eq_true.1 (hletters _ h) _ (List.mem_map_of_mem hc))
  unfold isSpace
  simp
  omega

theorem dropWhile_role (h : IsRole w) : (w ++ t).dropWhile isSpace = w ++ t :=
  dropWhile_append_of_head h.ne_nil fun _ hc => h.not_isSpace (List.mem_of_mem_head? hc)

/-- What follows the beginning of a line. -/
def roleCall : Regex :=
  .seq (.star (.char isSpace)) (.seq (anyWord ["system", "assistant", "developer"])
    (.seq (.star (.char isSpace)) (.char (· = ':'))))

theorem roleImpersonation_eq : roleImpersonation =
    .seq (.alt (.look fun prev _ => prev.isNone) (.char (· = '\n'))) roleCall := rfl

theorem denotes_roles : (anyWord ["system", "assistant", "developer"]).Denotes {w | IsRole w} := by
  intro p q
  rw [anyWord, mem_ends_anyOf]
  constructor
  · rintro ⟨r, hr, hq⟩
    obtain ⟨name, hname, rfl⟩ := List.mem_map.1 hr
    obtain ⟨w, hread, hw⟩ := mem_ends_foldedWord.1 hq
    refine ⟨w, ?_, hread⟩
    change w.map fold ∈ ["system", "assistant", "developer"].map String.toList
    exact hw ▸ List.mem_map_of_mem hname
  · rintro ⟨w, hw, hread⟩
    obtain ⟨name, hname, heq⟩ := List.mem_map.1
      (show w.map fold ∈ ["system", "assistant", "developer"].map String.toList from hw)
    exact ⟨_, List.mem_map_of_mem hname, mem_ends_foldedWord.2 ⟨w, hread, heq.symm⟩⟩

theorem ends_roleCall {prev : Option Char} : ends roleCall ⟨prev, s⟩ ≠ [] ↔ Calls s := by
  have hden : roleCall.Denotes _ :=
    denotes_star.seq (denotes_roles.seq (denotes_star.seq denotes_char))
  constructor
  · intro h
    obtain ⟨_, hword, t, hs⟩ := hden.exists_word h
    obtain ⟨sp, hsp, _, hw₁, rfl⟩ := Language.mem_mul.1 hword
    obtain ⟨w, hw, _, hw₂, rfl⟩ := Language.mem_mul.1 hw₁
    obtain ⟨sp', hsp', _, ⟨c, hc, rfl⟩, rfl⟩ := Language.mem_mul.1 hw₂
    obtain rfl := of_decide_eq_true hc
    refine ⟨w, sp' ++ ':' :: t, ?_, hw, ?_⟩
    · dsimp only at hs
      rw [hs, List.append_assoc, List.dropWhile_append_of_pos hsp]
      simp only [List.append_assoc]
      exact dropWhile_role hw
    · rw [List.dropWhile_append_of_pos hsp', List.dropWhile_cons_of_neg (by decide)]
      rfl
  · rintro ⟨w, t, hs, hw, hcolon⟩
    obtain ⟨t', ht⟩ := List.head?_eq_some_iff.1 hcolon
    have hspace : ∀ s : List Char, ∀ c ∈ s.takeWhile isSpace, isSpace c = true :=
      fun s c hc => List.all_eq_true.1 List.all_takeWhile c hc
    have heq : s.takeWhile isSpace ++ (w ++ (t.takeWhile isSpace ++ [':'])) ++ t' = s := by
      have h : s.takeWhile isSpace ++ (w ++ t) = s := hs ▸ List.takeWhile_append_dropWhile
      have h' : t.takeWhile isSpace ++ ':' :: t' = t := ht ▸ List.takeWhile_append_dropWhile
      simpa only [List.append_assoc, List.singleton_append, h'] using h
    rw [← heq]
    refine hden.ends_ne (Language.mem_mul.2 ⟨_, hspace s, _, Language.mem_mul.2 ⟨w, hw, _,
      Language.mem_mul.2 ⟨_, hspace t, _, ⟨':', by simp, rfl⟩, rfl⟩, rfl⟩, rfl⟩)

/-- **A role is impersonated** at the beginning of a line. -/
theorem occurs_roleImpersonation :
    roleImpersonation.Occurs none s ↔ Calls s ∨ ∃ u t, s = u ++ '\n' :: t ∧ Calls t := by
  rw [roleImpersonation_eq]
  constructor
  · rintro ⟨u, p, hu, hp⟩
    obtain ⟨q, hq, hcall⟩ := ends_seq_ne.1 hp
    rcases mem_ends_alt.1 hq with hq | hq
    · obtain ⟨hprev, rfl⟩ := mem_ends_look.1 hq
      rw [hu.2, Option.or_none, Option.isNone_iff_eq_none, List.getLast?_eq_none_iff] at hprev
      rw [hprev, Pos.reads_nil] at hu
      rw [hu] at hcall
      exact .inl (ends_roleCall.1 hcall)
    · obtain ⟨c, hc, hread⟩ := mem_ends_char.1 hq
      obtain rfl := of_decide_eq_true hc
      exact .inr ⟨u, q.rest, hu.1.trans (congrArg (u ++ ·) hread.1), ends_roleCall.1 hcall⟩
  · rintro (h | ⟨u, t, rfl, h⟩)
    · refine ⟨[], ⟨none, s⟩, Pos.reads_nil.2 rfl, ends_seq_ne.2 ⟨⟨none, s⟩, ?_, ends_roleCall.2 h⟩⟩
      exact mem_ends_alt.2 (.inl (mem_ends_look.2 ⟨rfl, rfl⟩))
    · refine occurs_append (ends_seq_ne.2 ⟨⟨some '\n', t⟩, ?_, ends_roleCall.2 h⟩)
      exact mem_ends_alt.2 (.inr (mem_ends_char.2 ⟨'\n', by decide, rfl, rfl⟩))

/-! ## Roles and lines -/

/-- The first line that is not blank begins with a colon. -/
def ColonFirst (ls : List (List Char)) : Prop :=
  ∃ mid c post, ls = mid ++ c :: post ∧ (∀ l ∈ mid, l = []) ∧ c.head? = some ':'

/-- The name of a role is a line, and the next one that is not blank begins with a colon. -/
def RoleFirst (ls : List (List Char)) : Prop :=
  ∃ pre r post, ls = pre ++ r :: post ∧ IsRole r ∧ ColonFirst post

theorem head?_joinLines (hl : l ≠ []) : (joinLines (l :: ls)).head? = l.head? := by
  obtain ⟨c, l, rfl⟩ := List.exists_cons_of_ne_nil hl
  rw [joinLines, List.intercalate_cons_cons_left]
  rfl

theorem colonFirst_iff : ColonFirst ls ↔ (joinLines (ls.dropWhile (· = []))).head? = some ':' := by
  constructor
  · rintro ⟨mid, c, post, rfl, hmid, hc⟩
    have hne : c ≠ [] := by
      rintro rfl
      cases hc
    rw [List.dropWhile_append_of_pos (by simpa using hmid),
      List.dropWhile_cons_of_neg (by simpa using hne), head?_joinLines hne, hc]
  · intro h
    cases hdrop : ls.dropWhile (· = []) with
    | nil =>
      rw [hdrop] at h
      cases h
    | cons c post =>
      have hne : c ≠ [] := by
        have := @head?_dropWhile_blank ls
        rw [hdrop] at this
        simpa using this
      rw [hdrop, head?_joinLines hne] at h
      refine ⟨ls.takeWhile (· = []), c, post, ?_, fun l hl => ?_, h⟩
      · rw [← hdrop, List.takeWhile_append_dropWhile]
      · simpa using List.all_eq_true.1 List.all_takeWhile l hl

/-- **A role is called** in a line, or in a line of its own before the colon. -/
theorem calls_joinLines (h : ∀ l ∈ ls, Tidy l) (hcalls : Calls (joinLines ls)) :
    (∃ l ∈ ls, Calls l) ∨ RoleFirst ls := by
  obtain ⟨w, t, heq, hw, hcolon⟩ := hcalls
  rw [dropWhile_joinLines fun l hl => (h l hl).head] at heq
  cases hdrop : ls.dropWhile (· = []) with
  | nil =>
    rw [hdrop] at heq
    exact absurd (List.append_eq_nil_iff.1 heq.symm).1 hw.ne_nil
  | cons l post =>
    have hls : ls = ls.takeWhile (· = []) ++ l :: post := by
      rw [← hdrop, List.takeWhile_append_dropWhile]
    have hl : l ∈ ls := by
      rw [hls]
      simp
    have hpost : ∀ l ∈ post, Tidy l := fun l hl => h l (by rw [hls]; simp [hl])
    have hne : l ≠ [] := by
      have := @head?_dropWhile_blank ls
      rw [hdrop] at this
      simpa using this
    have hself : l.dropWhile isSpace = l := by
      have := dropWhile_append_of_head (t := []) hne (h l hl).head
      rwa [List.append_nil] at this
    rw [hdrop] at heq
    cases post with
    | nil =>
      rw [joinLines, List.intercalate_singleton] at heq
      exact .inl ⟨l, hl, w, t, hself.trans heq, hw, hcolon⟩
    | cons l' post =>
      rw [joinLines_cons (List.cons_ne_nil _ _)] at heq
      -- the line is the name of the role, and what follows it begins with a newline
      have hrole : w = l → t = '\n' :: joinLines (l' :: post) → RoleFirst ls := by
        rintro rfl rfl
        refine ⟨_, w, _, hls, hw, colonFirst_iff.2 ?_⟩
        rwa [List.dropWhile_cons_of_pos (by decide),
          dropWhile_joinLines fun l hl => (hpost l hl).head] at hcolon
      rcases List.append_eq_append_iff.1 heq with ⟨a, ha, ht⟩ | ⟨a, ha, ht⟩
      · cases a with
        | nil => exact .inr (hrole (by simpa using ha) ht.symm)
        | cons c a =>
          obtain ⟨rfl, -⟩ := List.cons.inj ht
          have := hw.not_isSpace (c := '\n') (by simp [ha])
          exact absurd this (by decide)
      · by_cases hnil : a = []
        · rw [hnil] at ha ht
          exact .inr (hrole (by simpa using ha.symm) ht)
        · refine .inl ⟨l, hl, w, a, hself.trans ha, hw, ?_⟩
          have hlast : a.dropWhile isSpace ≠ [] := by
            intro hall
            rw [List.dropWhile_eq_nil_iff] at hall
            have := (h l hl).last (a.getLast hnil) (by
              rw [ha, List.getLast?_append, List.getLast?_eq_some_getLast hnil]
              rfl)
            rw [hall _ (List.getLast_mem hnil)] at this
            cases this
          rw [ht, List.dropWhile_append, if_neg (by simpa using hlast)] at hcolon
          obtain ⟨c, a', ha'⟩ := List.exists_cons_of_ne_nil hlast
          rw [ha'] at hcolon ⊢
          exact hcolon

/-- The name of a role, on a line before a colon, calls it. -/
theorem calls_of_colonFirst {r : List Char} {post : List (List Char)} (hr : IsRole r)
    (hpost : ∀ l ∈ post, Tidy l) (h : ColonFirst post) : Calls (joinLines (r :: post)) := by
  have hne : post ≠ [] := by
    obtain ⟨mid, c, post, rfl, -⟩ := h
    simp
  refine ⟨r, '\n' :: joinLines post, ?_, hr, ?_⟩
  · rw [joinLines_cons hne]
    exact dropWhile_role hr
  · rw [List.dropWhile_cons_of_pos (by decide),
      dropWhile_joinLines fun l hl => (hpost l hl).head]
    exact colonFirst_iff.1 h

/-- **In a text of tidy lines** that call no role by themselves, a role is impersonated exactly if
    its name is a line before a colon. -/
theorem occurs_roleImpersonation_joinLines (h : ∀ l ∈ ls, Tidy l) (hsafe : ∀ l ∈ ls, ¬Calls l) :
    roleImpersonation.Occurs none (joinLines ls) ↔ RoleFirst ls := by
  rw [occurs_roleImpersonation]
  have hn : ∀ l ∈ ls, '\n' ∉ l := fun l hl hc => absurd ((h l hl).not_isLineBreak hc) (by decide)
  constructor
  · rintro (hcalls | ⟨s, t, heq, hcalls⟩)
    · exact (calls_joinLines h hcalls).resolve_left fun ⟨l, hl, hc⟩ => hsafe l hl hc
    · obtain ⟨ls₁, ls₂, rfl, -, -, -, rfl⟩ := (joinLines_eq hn).1 heq
      rcases calls_joinLines (fun l hl => h l (List.mem_append_right _ hl)) hcalls with
        ⟨l, hl, hc⟩ | ⟨pre, r, post, rfl, hr⟩
      · exact absurd hc (hsafe l (List.mem_append_right _ hl))
      · exact ⟨ls₁ ++ pre, r, post, by rw [List.append_assoc], hr⟩
  · rintro ⟨pre, r, post, rfl, hr, hcolon⟩
    have hcalls := calls_of_colonFirst hr (fun l hl => h l (by simp [hl])) hcolon
    by_cases hpre : pre = []
    · rw [hpre, List.nil_append]
      exact .inl hcalls
    · exact .inr ⟨_, _, joinLines_append hpre (List.cons_ne_nil _ _), hcalls⟩

/-- Blank lines go up to one that is not blank. -/
theorem dropWhile_append_cons {pre post : List (List Char)} {r : List Char} (hr : r ≠ []) :
    (pre ++ r :: post).dropWhile (· = []) = pre.dropWhile (· = []) ++ r :: post := by
  induction pre with
  | nil => exact List.dropWhile_cons_of_neg (by simpa using hr)
  | cons a pre ih =>
    rw [List.cons_append, List.dropWhile_cons, List.dropWhile_cons, ih]
    split_ifs <;> rfl

/-- Without the blank lines at the end. -/
theorem dropWhile_reverse_append_cons {pre post : List (List Char)} {r : List Char} (hr : r ≠ []) :
    ((pre ++ r :: post).reverse.dropWhile (· = [])).reverse =
      pre ++ r :: (post.reverse.dropWhile (· = [])).reverse := by
  rw [List.reverse_append, List.reverse_cons, List.append_assoc, List.singleton_append,
    dropWhile_append_cons hr, List.reverse_append, List.reverse_cons,
    List.reverse_reverse, List.append_assoc]
  rfl

theorem exists_trimLines (ls : List (List Char)) : ∃ before after,
    ls = before ++ (trimLines ls ++ after) := by
  obtain ⟨before, hbefore⟩ : ls.dropWhile (· = []) <:+ ls := List.dropWhile_suffix _
  obtain ⟨after, hafter⟩ := prefixed_trimLines ls
  exact ⟨before, after, by rw [hafter, hbefore]⟩

/-- Blank lines at the ends do not matter. -/
theorem roleFirst_trimLines : RoleFirst (trimLines ls) ↔ RoleFirst ls := by
  constructor
  · rintro ⟨pre, r, post, heq, hr, mid, c, post', rfl, hmid, hc⟩
    obtain ⟨before, after, hls⟩ := exists_trimLines ls
    refine ⟨before ++ pre, r, mid ++ c :: (post' ++ after), ?_, hr, mid, c, _, rfl, hmid, hc⟩
    rw [hls, heq]
    simp
  · rintro ⟨pre, r, post, rfl, hr, mid, c, post', rfl, hmid, hc⟩
    have hne : c ≠ [] := by
      rintro rfl
      cases hc
    refine ⟨pre.dropWhile (· = []), r,
      mid ++ c :: (post'.reverse.dropWhile (· = [])).reverse, ?_, hr, mid, c, _, rfl, hmid, hc⟩
    rw [trimLines, dropWhile_append_cons hr.ne_nil, dropWhile_reverse_append_cons hr.ne_nil,
      dropWhile_reverse_append_cons hne]

/-- **The lines that are kept**: between the name of the role and the colon all are blank or go. -/
theorem roleFirst_filter {p : List Char → Bool} : RoleFirst (ls.filter p) ↔
    ∃ pre r mid c post, ls = pre ++ r :: (mid ++ c :: post) ∧ (IsRole r ∧ p r = true) ∧
      (∀ l ∈ mid, l = [] ∨ p l = false) ∧ c.head? = some ':' ∧ p c = true := by
  constructor
  · rintro ⟨pre, r, post, heq, hr, mid, c, post', rfl, hmid, hc⟩
    obtain ⟨pre', ls', rfl, -, hls'⟩ := List.filter_eq_append_iff.1 heq
    obtain ⟨gone, ls'', rfl, -, hpr, hls''⟩ := List.filter_eq_cons_iff.1 hls'
    obtain ⟨mid', ls''', rfl, hmid', hls'''⟩ := List.filter_eq_append_iff.1 hls''
    obtain ⟨gone', post'', rfl, hgone', hpc, -⟩ := List.filter_eq_cons_iff.1 hls'''
    refine ⟨pre' ++ gone, r, mid' ++ gone', c, post'', by simp, ⟨hr, hpr⟩, fun l hl => ?_, hc, hpc⟩
    rcases List.mem_append.1 hl with hl | hl
    · by_cases hp : p l = true
      · exact .inl (hmid l (hmid' ▸ List.mem_filter.2 ⟨hl, hp⟩))
      · exact .inr (by simpa using hp)
    · exact .inr (by simpa using hgone' l hl)
  · rintro ⟨pre, r, mid, c, post, rfl, ⟨hr, hpr⟩, hmid, hc, hpc⟩
    refine ⟨pre.filter p, r, mid.filter p ++ c :: post.filter p, ?_, hr, mid.filter p, c,
      post.filter p, rfl, fun l hl => ?_, hc⟩
    · rw [List.filter_append, List.filter_cons_of_pos hpr, List.filter_append,
        List.filter_cons_of_pos hpc]
    · obtain ⟨hl, hp⟩ := List.mem_filter.1 hl
      exact (hmid l hl).resolve_right (by rw [hp]; decide)

end

/-! ## Clean texts -/

section
variable {u : Unicode} {text : List Char}

theorem promptInjectionFindings_eq_nil {page : Option Int} :
    promptInjectionFindings u text page = [] ↔
      ∀ i ∈ injectionPatterns u, ¬i.2.Occurs none text := by
  rw [promptInjectionFindings, List.filterMap_eq_nil_iff]
  refine forall₂_congr fun i _ => ?_
  rw [← Regex.find_isSome, Option.map_eq_none_iff, ← Option.not_isSome_iff_eq_none]

theorem isSafe_iff {l : List Char} :
    isSafe u l = true ↔ ∀ i ∈ injectionPatterns u, ¬i.2.Occurs none l := by
  rw [isSafe, Bool.not_eq_true', List.any_eq_false]
  exact forall₂_congr fun i _ => not_congr Regex.search_iff

/-- A line with the name of a role is kept, and so is a line with a colon; the lines between them
    are blank, or they go. -/
def Uncovers (u : Unicode) (text : List Char) : Prop :=
  ∃ pre r mid c post, splitlines (normalizeDocumentText u text) = pre ++ r :: (mid ++ c :: post) ∧
    (IsRole r ∧ isSafe u r = true) ∧ (∀ l ∈ mid, l = [] ∨ isSafe u l = false) ∧
      c.head? = some ':' ∧ isSafe u c = true

/-- The sanitised text has no findings, and none are found when it is sanitised again, if Unicode
    leaves it alone. -/
def SanitizedClean (u : Unicode) (text : List Char) : Prop :=
  (∀ page, promptInjectionFindings u (sanitizeUntrustedText u text).1 page = []) ∧
    (u.nfkc (sanitizeUntrustedText u text).1 = (sanitizeUntrustedText u text).1 →
      (sanitizeUntrustedText u (sanitizeUntrustedText u text).1).2 = [])

/-- **What is found in a sanitised text** is a role whose colon comes from a later line. -/
theorem sanitized_findings {page : Option Int} :
    promptInjectionFindings u (sanitizeUntrustedText u text).1 page = [] ↔ ¬Uncovers u text := by
  have htidy : ∀ l ∈ keptLines u text, Tidy l := trimmed_keptLines.tidy
  have hsafe : ∀ l ∈ keptLines u text, ∀ i ∈ injectionPatterns u, ¬i.2.Occurs none l :=
    fun l hl => isSafe_iff.1 (List.mem_filter.1 (mem_trimLines hl)).2
  have hrole : ("role_impersonation", roleImpersonation) ∈ injectionPatterns u := by
    simp [injectionPatterns]
  have hcalls : ∀ l ∈ keptLines u text, ¬Calls l :=
    fun l hl hc => hsafe l hl _ hrole (occurs_roleImpersonation.2 (.inl hc))
  rw [promptInjectionFindings_eq_nil, Uncovers, normalizeDocumentText_eq,
    trimmed_normalLines.splitlines, ← roleFirst_filter, ← roleFirst_trimLines, ← keptLines,
    ← occurs_roleImpersonation_joinLines htidy hcalls, sanitizeUntrustedText_eq]
  constructor
  · exact fun h => h _ hrole
  · intro h i hi hocc
    rcases blind_of_mem hi with ⟨hblind, hproper⟩ | heq
    · obtain ⟨l, hl, hocc⟩ := (occurs_joinLines hblind hproper).1 hocc
      exact hsafe l hl i hi hocc
    · exact h (heq ▸ hocc)

/-- **A sanitised text is clean** exactly if no line with the name of a role, but for lines that go,
    comes right before a line with a colon. -/
theorem sanitized_clean_iff (u : Unicode) (text : List Char) :
    SanitizedClean u text ↔ ¬Uncovers u text := by
  constructor
  · exact fun h => sanitized_findings.1 (h.1 none)
  · refine fun h => ⟨fun page => sanitized_findings.2 h, fun hnfkc => ?_⟩
    rw [sanitizeUntrustedText]
    dsimp only
    rw [normalize_sanitize hnfkc]
    exact sanitized_findings.2 h

/-- `system`, and `: hello` on the next line. -/
theorem sanitized_not_always_clean : ¬∀ (u : Unicode) (text : List Char), SanitizedClean u text := by
  intro h
  have := (h .ascii "system\n: hello".toList).1 none
  revert this
  decide +kernel

end

end TracciaRuntime
