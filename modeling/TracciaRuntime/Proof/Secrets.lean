/-
  What the redacting policies leave of a text.

  * `number_delimited`, `phone_delimited`, `aadhaar_delimited`: numbers are digits between
    characters that are none;
  * `occurs_email`: an address is found exactly if two words stand around an `@`;
  * `redactText_identifies`: what is left of a text identifies nobody, exactly if no address
    begins right behind another one;
  * `SecretRedactionPolicy.redactText_clear`: what is left of a text contains no secret.
-/
import TracciaRuntime.Policies.Redacting
import TracciaRuntime.Text.Languages
import TracciaRuntime.Text.Locality

namespace TracciaRuntime

open Py Text

namespace PIIRedactionPolicy

open Regex

variable {u : Unicode} {r : Regex} {l : Language Char} {p q : Pos}

/-! ## Numbers -/

theorem none_of_not_any {o : Option Char} {f : Char → Bool} :
    (!o.any f) = true ↔ ∀ c ∈ o, f c = false := by
  cases o <;> simp

theorem mem_ends_number (hr : r.Denotes l) : q ∈ ends (number u r) p ↔
    (∃ w ∈ l, p.Reads w q) ∧ (∀ c ∈ p.prev, u.decimal c = false) ∧
      ∀ c ∈ q.rest.head?, u.decimal c = false := by
  unfold number
  simp only [mem_ends_seq, mem_ends_look, hr _ _, none_of_not_any]
  constructor
  · rintro ⟨_, ⟨hprev, rfl⟩, _, hw, hnext, rfl⟩
    exact ⟨hw, hprev, hnext⟩
  · rintro ⟨hw, hprev, hnext⟩
    exact ⟨p, ⟨hprev, rfl⟩, q, hw, hnext, rfl⟩

/-- The word begins with a digit. -/
def BeginsWithDigit (u : Unicode) (w : List Char) : Prop := ∃ c ∈ w.head?, u.decimal c = true

/-- **Numbers** are words between characters that are no digits, if what comes before their first
    digit may be left out. -/
theorem number_delimited (hr : r.Denotes l) (hlast : ∀ w ∈ l, ∃ c ∈ w.getLast?, u.decimal c = true)
    (hhead : ∀ w ∈ l, BeginsWithDigit u w ∨ ∃ c w', w = c :: w' ∧ u.decimal c = false ∧ w' ∈ l ∧
      BeginsWithDigit u w') :
    Delimited u.decimal (number u r) fun w => w ∈ l ∧ BeginsWithDigit u w where
  proper p q w hq hw hnil := by
    obtain ⟨⟨w', hw', hread⟩, -⟩ := (mem_ends_number hr).1 hq
    obtain ⟨c, hc, -⟩ := hlast w' hw'
    rw [hw.word_unique hread, hnil] at hc
    cases hc
  head w hw := hw.2
  last w hw := hlast w hw.1
  ends_ne prev w t hw hprev ht :=
    List.ne_nil_of_mem ((mem_ends_number hr (q := ⟨w.getLast?.or prev, t⟩)).2
      ⟨⟨w, hw.1, rfl, rfl⟩, hprev, ht⟩)
  exists_word prev text h := by
    obtain ⟨x, p, hx, hp⟩ := h
    obtain ⟨q, hq⟩ := List.exists_mem_of_ne_nil _ hp
    obtain ⟨⟨w, hw, hread⟩, hprev, hnext⟩ := (mem_ends_number hr).1 hq
    have htext : text = x ++ (w ++ q.rest) := hx.1.trans (congrArg (x ++ ·) hread.1)
    rw [hx.2] at hprev
    rcases hhead w hw with hd | ⟨c, w', rfl, hc, hw', hd⟩
    · exact ⟨x, w, q.rest, htext, ⟨hw, hd⟩, hprev, hnext⟩
    · refine ⟨x ++ [c], w', q.rest, by rw [htext, List.append_assoc]; rfl, ⟨hw', hd⟩, ?_, hnext⟩
      rw [List.getLast?_concat]
      rintro c' ⟨⟩
      exact hc
  apart prev m t hm := by
    obtain ⟨-, hprev, hnext⟩ := (mem_ends_number hr).1 (List.mem_of_mem_head? hm.2)
    exact ⟨hprev, hnext⟩

theorem decimal_of_le {c : Char} (h : '0' ≤ c) (h' : c ≤ '9') : u.decimal c = true := by
  have hle : c.toNat ≤ '9'.toNat := h'
  rw [u.decimal_ascii c (lt_of_le_of_lt hle (by decide)), Char.isDigit]
  simp only [Bool.and_eq_true, decide_eq_true_eq]
  exact ⟨h, h'⟩

/-- So many digits. -/
def Digits (u : Unicode) (n : Nat) : Language Char :=
  {w | (∀ c ∈ w, u.decimal c = true) ∧ w.length = n}

theorem denotes_digits {n : Nat} : (digits u n).Denotes (Digits u n) := by
  refine denotes_rep.congr (Set.ext fun w => and_congr_right fun _ => ?_)
  constructor
  · rintro ⟨hle, hge⟩
    have := hge n rfl
    omega
  · rintro rfl
    exact ⟨le_refl _, fun k hk => by rw [Option.some.inj hk, max_self]⟩

/-- The words of the language end with a digit. -/
def EndsWithDigits (u : Unicode) (l : Language Char) : Prop :=
  ∀ w ∈ l, ∃ c ∈ w.getLast?, u.decimal c = true

theorem endsWithDigits_digits {n : Nat} : EndsWithDigits u (Digits u (n + 1)) := by
  rintro w ⟨hall, hlen⟩
  have hne : w ≠ [] := List.ne_nil_of_length_eq_add_one hlen
  exact ⟨w.getLast hne, List.getLast?_eq_some_getLast hne, hall _ (List.getLast_mem hne)⟩

theorem EndsWithDigits.mul {m : Language Char} (h : EndsWithDigits u m) :
    EndsWithDigits u (l * m) := by
  rintro w hw
  obtain ⟨a, -, b, hb, rfl⟩ := Language.mem_mul.1 hw
  obtain ⟨c, hc, hdec⟩ := h b hb
  refine ⟨c, ?_, hdec⟩
  rw [List.getLast?_append, Option.mem_def, Option.mem_def.1 hc]
  rfl

theorem BeginsWithDigit.append {w t : List Char} (h : BeginsWithDigit u w) :
    BeginsWithDigit u (w ++ t) := by
  obtain ⟨c, hc, hdec⟩ := h
  refine ⟨c, ?_, hdec⟩
  rw [List.head?_append, Option.mem_def, Option.mem_def.1 hc]
  rfl

/-- A digit from `lo` on, and more. -/
theorem beginsWithDigit_of_mem {lo : Char} (hlo : '0' ≤ lo) {m : Language Char} {w : List Char}
    (hw : w ∈ Single (fun c => lo ≤ c && c ≤ '9') * m) : BeginsWithDigit u w := by
  obtain ⟨a, ⟨c, hc, rfl⟩, b, -, rfl⟩ := Language.mem_mul.1 hw
  rw [Bool.and_eq_true, decide_eq_true_eq, decide_eq_true_eq] at hc
  exact ⟨c, rfl, decimal_of_le (Char.le_trans hlo hc.1) hc.2⟩

section
variable (u)

def AadhaarNumbers : Language Char :=
  Single (fun c => '2' ≤ c && c ≤ '9') * (Digits u 3 * ((Single (fun c => isSpace c || c = '-') + 1) *
    (Digits u 4 * ((Single (fun c => isSpace c || c = '-') + 1) * Digits u 4))))

def LocalNumbers : Language Char :=
  Single (fun c => '6' ≤ c && c ≤ '9') * (Digits u 4 *
    ((Single (fun c => isSpace c || c ∈ ['.', '-']) + 1) * Digits u 5))

def Prefixes : Language Char :=
  (Single (· = '+') + 1) * ({"91".toList} * (Single (fun c => isSpace c || c ∈ ['.', '-']) + 1))

def PhoneNumbers : Language Char := (Prefixes + 1) * LocalNumbers u

/-- The digits of a number, from the first one on. -/
def Bare (l : Language Char) (w : List Char) : Prop := w ∈ l ∧ BeginsWithDigit u w

end

theorem denotes_aadhaarDigits : (aadhaarDigits u).Denotes (AadhaarNumbers u) :=
  denotes_char.seq (denotes_digits.seq (denotes_char.opt.seq
    (denotes_digits.seq (denotes_char.opt.seq denotes_digits))))

theorem denotes_phoneDigits : (phoneDigits u).Denotes (PhoneNumbers u) :=
  (denotes_char.opt.seq (denotes_word.seq denotes_char.opt)).opt.seq
    (denotes_char.seq (denotes_digits.seq (denotes_char.opt.seq denotes_digits)))

theorem aadhaar_delimited : Delimited u.decimal (aadhaar u) (Bare u (AadhaarNumbers u)) :=
  number_delimited denotes_aadhaarDigits endsWithDigits_digits.mul.mul.mul.mul.mul
    (fun _ hw => .inl (beginsWithDigit_of_mem (by decide) hw))

theorem phone_delimited : Delimited u.decimal (phone u) (Bare u (PhoneNumbers u)) := by
  refine number_delimited denotes_phoneDigits endsWithDigits_digits.mul.mul.mul.mul
    (fun w hw => ?_)
  obtain ⟨a, ha, b, hb, rfl⟩ := Language.mem_mul.1 hw
  have hb' : BeginsWithDigit u b := beginsWithDigit_of_mem (by decide) hb
  rcases (Language.mem_add _ _ _).1 ha with ha | rfl
  · obtain ⟨plus, hplus, rest, hrest, rfl⟩ := Language.mem_mul.1 ha
    have hmem : rest ∈ Prefixes :=
      Language.mem_mul.2 ⟨[], (Language.mem_add _ _ _).2 (.inr rfl), rest, hrest, rfl⟩
    have hdigit : BeginsWithDigit u rest := by
      obtain ⟨_, rfl, s, -, rfl⟩ := Language.mem_mul.1 hrest
      exact ⟨'9', rfl, decimal_of_le (by decide) (by decide)⟩
    rcases (Language.mem_add _ _ _).1 hplus with ⟨c, hc, rfl⟩ | rfl
    · -- the plus may be left out
      obtain rfl := of_decide_eq_true hc
      refine .inr ⟨'+', rest ++ b, rfl, ?_, ?_, hdigit.append⟩
      · rw [u.decimal_ascii _ (by decide)]
        rfl
      · exact Language.mem_mul.2 ⟨rest, (Language.mem_add _ _ _).2 (.inl hmem), b, hb, rfl⟩
    · exact .inl hdigit.append
  · exact .inl hb'

/-! ## Addresses -/

/-- The beginnings of addresses, down to the first character behind a dot. -/
def Addresses (u : Unicode) : Language Char :=
  Many (isLocal u) * (Single (· = '@') * (Many (isDomain u) * (Single (· = '.') * Single (isDomain u))))

/-- The beginning of an address. -/
def beginning (u : Unicode) : Regex :=
  .seq (.plus (.char (isLocal u))) (.seq (.char (· = '@'))
    (.seq (.plus (.char (isDomain u))) (.seq (.char (· = '.')) (.char (isDomain u)))))

theorem denotes_beginning : (beginning u).Denotes (Addresses u) :=
  denotes_plus.seq (denotes_char.seq (denotes_plus.seq (denotes_char.seq denotes_char)))

/-- **An address** is found exactly if it begins here, and not before. -/
theorem ends_email_ne : ends (email u) p ≠ [] ↔
    (∀ c ∈ p.prev, isLocal u c = false) ∧ ∃ w ∈ Addresses u, w <+: p.rest := by
  have hne : (∃ w ∈ Addresses u, w <+: p.rest) ↔ ends (beginning u) p ≠ [] := by
    constructor
    · rintro ⟨w, hw, t, ht⟩
      have : ends (beginning u) ⟨p.prev, w ++ t⟩ ≠ [] := denotes_beginning.ends_ne hw
      rwa [ht] at this
    · intro h
      obtain ⟨w, hw, t, ht⟩ := denotes_beginning.exists_word h
      exact ⟨w, hw, t, ht.symm⟩
  rw [hne, email, ends_seq_ne, beginning]
  simp only [mem_ends_look, none_of_not_any, and_assoc, exists_and_left, exists_eq_left,
    ends_seq_ne, ends_plus_ne]

theorem isLocal_of_isDomain {c : Char} (h : isDomain u c = true) : isLocal u c = true := by
  unfold isDomain at h
  unfold isLocal
  rw [Bool.or_eq_true, decide_eq_true_eq] at h
  rcases h with h | rfl
  · rw [h]
    rfl
  · simp

/-- One more character before it makes another address. -/
theorem cons_mem_addresses {c : Char} {w : List Char} (hc : isLocal u c = true)
    (hw : w ∈ Addresses u) : c :: w ∈ Addresses u := by
  obtain ⟨x, ⟨hx, -⟩, y, hy, rfl⟩ := Language.mem_mul.1 hw
  exact Language.mem_mul.2 ⟨c :: x, ⟨List.forall_mem_cons.2 ⟨hc, hx⟩, List.cons_ne_nil _ _⟩, y, hy,
    rfl⟩

/-- **An address in a text** is found from its beginning on, unless it goes on from what stands
    before the text. -/
theorem address_begins {w : List Char} (hw : w ∈ Addresses u) (prev : Option Char)
    (a : List Char) :
    (∃ a₁ a₂, a = a₁ ++ a₂ ∧ a₂ ++ w ∈ Addresses u ∧
      ∀ c ∈ a₁.getLast?.or prev, isLocal u c = false) ∨
    ((∃ c ∈ prev, isLocal u c = true) ∧ a ++ w ∈ Addresses u) := by
  have here : ∀ prev (a : List Char), a ++ w ∈ Addresses u →
      (∃ a₁ a₂, a = a₁ ++ a₂ ∧ a₂ ++ w ∈ Addresses u ∧
        ∀ c ∈ a₁.getLast?.or prev, isLocal u c = false) ∨
      ((∃ c ∈ prev, isLocal u c = true) ∧ a ++ w ∈ Addresses u) := by
    intro prev a ha
    by_cases hprev : ∃ c ∈ prev, isLocal u c = true
    · exact .inr ⟨hprev, ha⟩
    · refine .inl ⟨[], a, rfl, ha, fun c hc => ?_⟩
      by_contra hn
      exact hprev ⟨c, hc, by simpa using hn⟩
  induction a generalizing prev with
  | nil => exact here prev [] hw
  | cons c a ih =>
    rcases ih (some c) with ⟨a₁, a₂, rfl, ha, hall⟩ | ⟨⟨_, ⟨⟩, hc⟩, ha⟩
    · refine .inl ⟨c :: a₁, a₂, rfl, ha, ?_⟩
      rwa [← List.singleton_append, List.getLast?_append, Option.or_assoc]
    · exact here prev (c :: a) (cons_mem_addresses hc ha)

/-- **A text with an address** is one in which the words stand around an `@`. -/
theorem occurs_email {text : List Char} :
    (email u).Occurs none text ↔ ∃ w ∈ Addresses u, w <:+: text := by
  constructor
  · rintro ⟨x, p, hx, hp⟩
    obtain ⟨-, w, hw, t, ht⟩ := ends_email_ne.1 hp
    exact ⟨w, hw, x, t, by rw [List.append_assoc, ht, ← hx.1]⟩
  · rintro ⟨w, hw, a, t, rfl⟩
    rcases address_begins hw none a with ⟨a₁, a₂, rfl, ha, hall⟩ | ⟨⟨c, hc, -⟩, -⟩
    · rw [List.append_assoc, List.append_assoc]
      refine occurs_append (ends_email_ne.2 ⟨hall, a₂ ++ w, ha, t, ?_⟩)
      rw [List.append_assoc]
    · cases hc

theorem email_proper : (email u).Proper :=
  proper_seq (.inr (proper_seq (.inr (proper_seq (.inl proper_char)))))

/-! ## What is left of a text -/

theorem isLocal_bracket : isLocal u '[' = false ∧ isLocal u ']' = false := by
  simp only [isLocal, Unicode.isWord, u.alnum_ascii '[' (by decide),
    u.alnum_ascii ']' (by decide)]
  decide

/-- An address has no brackets. -/
theorem addresses_avoid {w : List Char} (hw : w ∈ Addresses u) {c : Char}
    (hc : c = '[' ∨ c = ']') : c ∉ w := by
  have hlocal : isLocal u c = false := by
    rcases hc with rfl | rfl
    · exact isLocal_bracket.1
    · exact isLocal_bracket.2
  have hdomain : isDomain u c = false := by
    by_contra hn
    rw [isLocal_of_isDomain (by simpa using hn)] at hlocal
    cases hlocal
  intro hmem
  have := denotes_beginning.accepts hw hmem
  simp only [beginning, plus, Accepts, hlocal, hdomain, decide_eq_true_eq] at this
  rcases hc with rfl | rfl <;> simp at this

/-- An address has an `@`. -/
theorem addresses_at {w : List Char} (hw : w ∈ Addresses u) : '@' ∈ w := by
  obtain ⟨x, -, y, hy, rfl⟩ := Language.mem_mul.1 hw
  obtain ⟨_, ⟨c, hc, rfl⟩, z, -, rfl⟩ := Language.mem_mul.1 hy
  obtain rfl := of_decide_eq_true hc
  simp

theorem addresses_leave {w label : List Char} (hw : w ∈ Addresses u) (hl : '@' ∉ label) :
    ¬w <:+: label := fun h => hl (h.subset (addresses_at hw))

theorem decimal_eq_false {label : List Char}
    (h : ∀ c ∈ label, c.toNat < 128 ∧ c.isDigit = false) {c : Char} (hc : c ∈ label) :
    u.decimal c = false := by
  obtain ⟨hlt, hdigit⟩ := h c hc
  rw [u.decimal_ascii c hlt, hdigit]

theorem number_blind {b : Char} (hr : r.Blind b) (hb : u.decimal b = false) :
    (number u r).Blind b := by
  refine ⟨fun o => ⟨?_, ?_⟩, hr, fun o => ⟨?_, ?_⟩⟩ <;> simp [hb]

/-- Numbers do not see past a bracket. -/
theorem digits_blind {b : Char} (hb : b = '[' ∨ b = ']') :
    (phoneDigits u).Blind b ∧ (aadhaarDigits u).Blind b := by
  have hdec : u.decimal b = false := by
    rcases hb with rfl | rfl <;> rw [u.decimal_ascii _ (by decide)] <;> rfl
  simp only [phoneDigits, phoneGap, aadhaarDigits, aadhaarGap, digits, opt, Blind, proper_char,
    hdec]
  rcases hb with rfl | rfl <;> simp [Blind, word] <;> decide

theorem blind {b : Char} (hb : b = '[' ∨ b = ']') : (phone u).Blind b ∧ (aadhaar u).Blind b := by
  have hdec : u.decimal b = false := by
    rcases hb with rfl | rfl <;> rw [u.decimal_ascii _ (by decide)] <;> rfl
  exact ⟨number_blind (digits_blind hb).1 hdec, number_blind (digits_blind hb).2 hdec⟩

/-- A number has no brackets. -/
theorem avoid {w : List Char} (hr : r.Denotes l) (h : r.Blind '[' ∧ r.Blind ']') (hw : Bare u l w) :
    '[' ∉ w ∧ ']' ∉ w :=
  ⟨fun hc => h.1.not_accepts (hr.accepts hw.1 hc), fun hc => h.2.not_accepts (hr.accepts hw.1 hc)⟩

/-- A substitution by a label works on both sides of another label by itself. -/
theorem sub_append_label {r : Regex} {W : List Char → Prop} (hd : Delimited u.decimal r W)
    (hr : r.Blind '[' ∧ r.Blind ']') {g : List Char → List Char} {label : List Char}
    (hl : ∀ c ∈ label, u.decimal c = false) (s t : List Char) :
    sub r g (s ++ '[' :: (label ++ ']' :: t)) = sub r g s ++ '[' :: (label ++ ']' :: sub r g t) := by
  rw [sub_append_cons hr.1, sub_append_cons hr.2, sub_of_not_occurs (hd.not_occurs hl)]

/-- Before the first address there is none. -/
theorem mem_tail_of_address {text s w : List Char} (hw : w ∈ Addresses u)
    (hs : s ∈ split (email u) text) (h : w <:+: s) : s ∈ (split (email u) text).tail := by
  rw [split] at hs ⊢
  rcases exists_match email_proper none text with hn | ⟨s₀, m, t, rfl, hskip, hm⟩
  · rw [pieces_of_not_occurs hn, gaps_map_inl, List.mem_singleton] at hs
    exact absurd (occurs_email.2 ⟨w, hw, hs ▸ h⟩) hn
  · rw [pieces_append hskip, pieces_match hm, gaps_append] at hs ⊢
    rcases List.mem_cons.1 hs with rfl | hs
    · obtain ⟨a, y, rfl⟩ := h
      rcases address_begins hw none a with ⟨a₁, a₂, rfl, ha, hall⟩ | ⟨⟨c, hc, -⟩, -⟩
      · refine absurd (hskip a₁ (a₂ ++ w ++ y) (by simp only [List.append_assoc]) ?_) ?_
        · intro hnil
          have := addresses_at ha
          rw [(List.append_eq_nil_iff.1 hnil).1] at this
          cases this
        · exact ends_email_ne.2 ⟨hall, a₂ ++ w, ha, (List.prefix_append _ _).trans
            (List.prefix_append _ _)⟩
      · cases hc
    · exact hs

/-- Behind an address that is found, up to the next one and cut at the numbers, there is another
    address. -/
def Trailed (u : Unicode) (text : List Char) : Prop :=
  ∃ s ∈ (split (email u) text).tail, ∃ z ∈ split (phone u) s, ∃ y ∈ split (aadhaar u) z,
    (email u).Occurs none y

/-- The text matches a pattern of the policy. -/
def Identifies (u : Unicode) (text : List Char) : Prop :=
  ∃ i ∈ patterns u, i.2.1.Occurs none text

theorem redactText_fst {s : String} : (redactText u s).1.toList =
    sub (aadhaar u) (fun _ => '[' :: ("REDACTED_AADHAAR".toList ++ [']']))
      (sub (phone u) (fun _ => '[' :: ("REDACTED_PHONE".toList ++ [']']))
        (sub (email u) (fun _ => '[' :: ("REDACTED_EMAIL".toList ++ [']'])) s.toList)) := by
  simp only [redactText, redactPattern, patterns, List.foldl_cons, List.foldl_nil, subn,
    String.toList_ofList]
  rfl

section
variable {s : String} {w : List Char}

theorem label_no_digit {label : List Char}
    (hl : label ∈ ["REDACTED_EMAIL".toList, "REDACTED_PHONE".toList, "REDACTED_AADHAAR".toList]) :
    '@' ∉ label ∧ ∀ c ∈ label, u.decimal c = false := by
  have h : ∀ label ∈ ["REDACTED_EMAIL".toList, "REDACTED_PHONE".toList,
      "REDACTED_AADHAAR".toList], '@' ∉ label ∧
      label.all (fun c => c.toNat < 128 && !c.isDigit) = true := by
    decide
  refine ⟨(h label hl).1, fun c hc => decimal_eq_false (fun c hc => ?_) hc⟩
  simpa using List.all_eq_true.1 (h label hl).2 c hc

/-- **An address that is left** lies between the identifiers that were found. -/
theorem address_left (hw : w ∈ Addresses u) : w <:+: (redactText u s).1.toList ↔
    ∃ x ∈ split (email u) s.toList, ∃ z ∈ split (phone u) x, ∃ y ∈ split (aadhaar u) z,
      w <:+: y := by
  have hemail := (label_no_digit (u := u) (List.mem_cons_self)).2
  have hphone := (label_no_digit (u := u) (List.mem_cons_of_mem _ List.mem_cons_self)).2
  have hb := addresses_avoid hw (.inl rfl)
  have hb' := addresses_avoid hw (.inr rfl)
  have hblind := blind (u := u) (.inl rfl : '[' = '[' ∨ _)
  have hblind' := blind (u := u) (.inr rfl : ']' = '[' ∨ _)
  rw [redactText_fst, infix_sub_iff (F := fun t => sub (aadhaar u) _ (sub (phone u) _ t))
    email_proper (fun s t => ?_) hb hb' (addresses_leave hw (by decide))]
  · refine exists_congr fun x => and_congr_right fun _ => ?_
    rw [infix_sub_iff (F := sub (aadhaar u) _) phone_delimited.proper
      (sub_append_label aadhaar_delimited ⟨hblind.2, hblind'.2⟩ hphone) hb hb'
      (addresses_leave hw (by decide))]
    refine exists_congr fun z => and_congr_right fun _ => ?_
    exact infix_sub_iff (F := id) aadhaar_delimited.proper (fun _ _ => rfl) hb hb'
      (addresses_leave hw (by decide))
  · rw [sub_append_label phone_delimited ⟨hblind.1, hblind'.1⟩ hemail,
      sub_append_label aadhaar_delimited ⟨hblind.2, hblind'.2⟩ hemail]

/-- **No number is left.** -/
theorem number_left {W : List Char → Prop} (hd : Delimited u.decimal r W)
    (ha : ∀ w, W w → '[' ∉ w ∧ ']' ∉ w) (hr : r = phone u ∨ r = aadhaar u) :
    ¬r.Occurs none (redactText u s).1.toList := by
  have hphone := (label_no_digit (u := u) (List.mem_cons_of_mem _ List.mem_cons_self)).2
  have haadhaar := (label_no_digit (u := u)
    (List.mem_cons_of_mem _ (List.mem_cons_of_mem _ List.mem_cons_self))).2
  have hbracket : u.decimal ']' = false := by
    rw [u.decimal_ascii _ (by decide)]
    rfl
  rw [redactText_fst]
  intro h
  obtain ⟨h, hne⟩ := hd.occurs_sub aadhaar_delimited ha hbracket haadhaar h
  obtain ⟨-, hne'⟩ := hd.occurs_sub phone_delimited ha hbracket hphone h
  exact hr.elim hne' hne

/-- **What is left of a text** identifies nobody, exactly if no address begins right behind
    another one. -/
theorem redactText_identifies : Identifies u (redactText u s).1.toList ↔ Trailed u s.toList := by
  have haddress : (email u).Occurs none (redactText u s).1.toList ↔ Trailed u s.toList := by
    rw [occurs_email]
    constructor
    · rintro ⟨w, hw, h⟩
      obtain ⟨x, hx, z, hz, y, hy, h⟩ := (address_left hw).1 h
      have hx' := mem_tail_of_address hw hx (h.trans
        ((infix_of_mem_split aadhaar_delimited.proper hy).trans
          (infix_of_mem_split phone_delimited.proper hz)))
      exact ⟨x, hx', z, hz, y, hy, occurs_email.2 ⟨w, hw, h⟩⟩
    · rintro ⟨x, hx, z, hz, y, hy, h⟩
      obtain ⟨w, hw, h⟩ := occurs_email.1 h
      exact ⟨w, hw, (address_left hw).2 ⟨x, List.mem_of_mem_tail hx, z, hz, y, hy, h⟩⟩
  rw [← haddress]
  constructor
  · rintro ⟨i, hi, h⟩
    simp only [patterns, List.mem_cons, List.not_mem_nil, or_false] at hi
    rcases hi with rfl | rfl | rfl
    · exact h
    · exact absurd h (number_left phone_delimited (fun w => avoid denotes_phoneDigits
        ⟨(digits_blind (.inl rfl)).1, (digits_blind (.inr rfl)).1⟩) (.inl rfl))
    · exact absurd h (number_left aadhaar_delimited (fun w => avoid denotes_aadhaarDigits
        ⟨(digits_blind (.inl rfl)).2, (digits_blind (.inr rfl)).2⟩) (.inr rfl))
  · exact fun h => ⟨_, List.mem_cons_self, h⟩

end

end PIIRedactionPolicy

namespace SecretRedactionPolicy

open Regex

variable {k mid v w : List Char} {c : Char}

/-! ## Secrets -/

theorem isSecretChar_range (h : isSecretChar c = true) : 45 ≤ c.toNat ∧ (c.toNat ≤ 57 ∨
    (65 ≤ c.toNat ∧ c.toNat ≤ 90) ∨ (95 ≤ c.toNat ∧ c.toNat ≤ 122) ∨ c.toNat = 0x212A ∨
      c.toNat = 0x17F ∨ c.toNat = 0x130 ∨ c.toNat = 0x131) := by
  unfold isSecretChar at h
  simp only [Bool.or_eq_true, Bool.and_eq_true, decide_eq_true_eq, List.mem_cons,
    List.not_mem_nil, or_false] at h
  rcases h with (⟨hle, hge⟩ | ⟨hle, hge⟩) | rfl | rfl | rfl | rfl
  · have := fold_range (c := c) (by simpa using ⟨hle, hge⟩)
    omega
  · have hle' : '0'.toNat ≤ c.toNat := hle
    have hge' : c.toNat ≤ '9'.toNat := hge
    have h0 : '0'.toNat = 48 := rfl
    have h9 : '9'.toNat = 57 := rfl
    omega
  all_goals decide

theorem not_isSpace (h : isSecretChar c = true) : isSpace c = false := by
  have := isSecretChar_range h
  unfold isSpace
  simp
  omega

section
variable {prev : Option Char} {s t : List Char}

/-- What stands between the name of a secret and the secret. -/
def Colon (mid : List Char) : Prop :=
  ∃ sp c sp', mid = sp ++ c :: sp' ∧ (∀ d ∈ sp, isSpace d = true) ∧ (c = ':' ∨ c = '=') ∧
    ∀ d ∈ sp', isSpace d = true

/-- A name, a colon and a secret. -/
structure Secret (k mid v : List Char) : Prop where
  name : ∀ c ∈ k, isSecretChar c = true
  short : k.length ≤ 8
  colon : Colon mid
  value : ∀ c ∈ v, isSecretChar c = true
  long : 8 ≤ v.length

theorem isSecretChar_of_fold {w w' : List Char} (h : w'.map fold = w)
    (hw : w.all (fun c => 'a' ≤ c && c ≤ 'z') = true) : ∀ c ∈ w', isSecretChar c = true := by
  intro c hc
  have := List.all_eq_true.1 hw (fold c) (h ▸ List.mem_map_of_mem hc)
  rw [isSecretChar, this]
  rfl

/-- The names of secrets. -/
theorem keyword_denotes : ∃ l, keyword.Denotes l ∧
    ∀ k ∈ l, (∀ c ∈ k, isSecretChar c = true) ∧ k.length ≤ 8 := by
  refine ⟨_, (denotes_foldedWord.seq (denotes_char.opt.seq denotes_foldedWord)).alt
    (denotes_foldedWord.alt (denotes_foldedWord.alt denotes_foldedWord)), fun k hk => ?_⟩
  have hword : ∀ w ∈ ["password".toList, "secret".toList, "token".toList], k ∈ Folded w →
      (∀ c ∈ k, isSecretChar c = true) ∧ k.length ≤ 8 := by
    intro w hw hk
    have h : ∀ w ∈ ["password".toList, "secret".toList, "token".toList],
        w.all (fun c => 'a' ≤ c && c ≤ 'z') = true ∧ w.length ≤ 8 := by
      decide
    refine ⟨isSecretChar_of_fold hk (h w hw).1, ?_⟩
    rw [← k.length_map (f := fold), hk]
    exact (h w hw).2
  rcases (Language.mem_add _ _ _).1 hk with hk | hk
  · obtain ⟨a, ha, b, hb, rfl⟩ := Language.mem_mul.1 hk
    obtain ⟨o, ho, e, he, rfl⟩ := Language.mem_mul.1 hb
    have ha' : a.length = 3 := by rw [← a.length_map (f := fold), ha]; rfl
    have he' : e.length = 3 := by rw [← e.length_map (f := fold), he]; rfl
    have ho' : (∀ c ∈ o, isSecretChar c = true) ∧ o.length ≤ 1 := by
      rcases (Language.mem_add _ _ _).1 ho with ⟨c, hc, rfl⟩ | rfl
      · simp only [List.mem_cons, List.not_mem_nil, or_false, decide_eq_true_eq] at hc
        rcases hc with rfl | rfl <;> exact ⟨List.forall_mem_singleton.2 (by decide), Nat.le_refl 1⟩
      · simp
    constructor
    · intro c hc
      rcases List.mem_append.1 hc with hc | hc
      · exact isSecretChar_of_fold ha (by decide) c hc
      · rcases List.mem_append.1 hc with hc | hc
        · exact ho'.1 c hc
        · exact isSecretChar_of_fold he (by decide) c hc
    · rw [List.length_append, List.length_append]
      omega
  · rcases (Language.mem_add _ _ _).1 hk with hk | hk
    · exact hword _ (by decide) hk
    · rcases (Language.mem_add _ _ _).1 hk with hk | hk
      · exact hword _ (by decide) hk
      · exact hword _ (by decide) hk

/-- **What the pattern finds.** -/
theorem pattern_denotes : ∃ l, pattern.Denotes l ∧
    ∀ w ∈ l, ∃ k mid v, w = k ++ (mid ++ v) ∧ Secret k mid v := by
  obtain ⟨l, hl, hkeyword⟩ := keyword_denotes
  refine ⟨_, hl.seq (denotes_rep.seq (denotes_char.seq (denotes_rep.seq denotes_rep))),
    fun w hw => ?_⟩
  obtain ⟨k, hk, w₁, hw₁, rfl⟩ := Language.mem_mul.1 hw
  obtain ⟨sp, ⟨hsp, -⟩, w₂, hw₂, rfl⟩ := Language.mem_mul.1 hw₁
  obtain ⟨_, ⟨c, hc, rfl⟩, w₃, hw₃, rfl⟩ := Language.mem_mul.1 hw₂
  obtain ⟨sp', ⟨hsp', -⟩, v, ⟨hv, hlong, -⟩, rfl⟩ := Language.mem_mul.1 hw₃
  refine ⟨k, sp ++ c :: sp', v, by simp, (hkeyword k hk).1, (hkeyword k hk).2,
    ⟨sp, c, sp', rfl, hsp, ?_, hsp'⟩, hv, hlong⟩
  simpa using hc

/-! ## Hiding -/

theorem matches_word (hv : v ≠ []) : Matches (.word v) prev v t := by
  refine ⟨hv, ?_⟩
  have hmem : (⟨v.getLast?.or prev, t⟩ : Pos) ∈ ends (.word v) ⟨prev, v ++ t⟩ :=
    mem_ends_word.2 ⟨rfl, rfl⟩
  cases h : ends (.word v) ⟨prev, v ++ t⟩ with
  | nil =>
    rw [h] at hmem
    cases hmem
  | cons q qs =>
    have hq : q ∈ ends (.word v) ⟨prev, v ++ t⟩ := h ▸ List.mem_cons_self
    exact congrArg some (Pos.Reads.unique (mem_ends_word.1 hmem) (mem_ends_word.1 hq))

theorem skips_word (h : ∀ a b, s = a ++ b → b ≠ [] → ¬v <+: b ++ t) : Skips (.word v) prev s t := by
  intro a b hs hb
  rw [List.eq_nil_iff_forall_not_mem]
  intro q hq
  exact h a b hs hb ⟨q.rest, (mem_ends_word.1 hq).1.symm⟩

/-- No character of the middle belongs to a secret. -/
theorem Colon.not_isSecretChar (h : Colon mid) : ∀ c ∈ mid, isSecretChar c = false := by
  obtain ⟨sp, c, sp', rfl, hsp, hc, hsp'⟩ := h
  have hspace : ∀ d, isSpace d = true → isSecretChar d = false := by
    intro d hd
    by_contra hn
    rw [not_isSpace (by simpa using hn)] at hd
    cases hd
  intro d hd
  rcases List.mem_append.1 hd with hd | hd
  · exact hspace d (hsp d hd)
  · rcases List.mem_cons.1 hd with rfl | hd
    · rcases hc with rfl | rfl <;> decide
    · exact hspace d (hsp' d hd)

theorem Colon.ne_nil (h : Colon mid) : mid ≠ [] := by
  obtain ⟨sp, c, sp', rfl, -⟩ := h
  simp

/-- The group is the secret. -/
theorem Secret.group (h : Secret k mid v) : group (k ++ (mid ++ v)) = v := by
  obtain ⟨mid', d, hmid⟩ := (List.eq_nil_or_concat mid).resolve_left h.colon.ne_nil
  rw [List.concat_eq_append] at hmid
  have hd : isSecretChar d = false := h.colon.not_isSecretChar d (by simp [hmid])
  have hrev : (k ++ (mid ++ v)).reverse = v.reverse ++ d :: (mid'.reverse ++ k.reverse) := by
    simp [hmid]
  rw [SecretRedactionPolicy.group, hrev,
    List.takeWhile_append_of_pos fun c hc => h.value c (List.mem_reverse.1 hc),
    List.takeWhile_cons_of_neg (by simp [hd]), List.append_nil, List.reverse_reverse]

/-- A word of such characters does not reach past one that is none. -/
theorem prefix_until {b rest : List Char} (hv : ∀ c ∈ v, isSecretChar c = true)
    (hc : isSecretChar c = false) (h : v <+: b ++ c :: rest) : v <+: b := by
  obtain ⟨y, hy⟩ := h
  rcases append_eq_append_cons (x := []) (b := c) (fun hmem => by
    rw [hv c hmem] at hc
    cases hc) (show [] ++ (v ++ y) = b ++ c :: rest from hy) with ⟨y', rfl, -⟩ | ⟨x', hx, -⟩
  · exact List.prefix_append _ _
  · exact absurd hx.symm (by simp)

/-- The secret does not begin between the name and itself. -/
theorem Secret.not_begins (h : Secret k mid v) {b : List Char} (hb : b ≠ [])
    (hmid : ∀ c ∈ b, c ∈ mid) : ¬v <+: b ++ t := by
  intro hpre
  obtain ⟨c, b, rfl⟩ := List.exists_cons_of_ne_nil hb
  have hnil := List.prefix_nil.1 (prefix_until (b := []) h.value
    (h.colon.not_isSecretChar c (hmid c List.mem_cons_self)) hpre)
  have := h.long
  rw [hnil] at this
  cases this

/-- It begins in the name only if it is the name. -/
theorem Secret.skips (h : Secret k mid v) (hk : k ≠ v) :
    Skips (.word v) prev (k ++ mid) (v ++ t) := by
  refine skips_word fun a b hab hb hpre => ?_
  rcases List.append_eq_append_iff.1 hab with ⟨a', rfl, hmid⟩ | ⟨c', hname, rfl⟩
  · exact h.not_begins hb (fun c hc => by simp [hmid, hc]) hpre
  · obtain ⟨d, mid', rfl⟩ := List.exists_cons_of_ne_nil h.colon.ne_nil
    rw [List.append_assoc] at hpre
    have hc' := prefix_until h.value (h.colon.not_isSecretChar d List.mem_cons_self) hpre
    have hlen := hc'.length_le
    have hshort := h.short
    have hlong := h.long
    rw [hname, List.length_append] at hshort
    have heq := hc'.eq_of_length (by omega)
    obtain rfl := List.length_eq_zero_iff.1 (show a.length = 0 by omega)
    exact hk (hname.trans heq.symm)

/-- **The secret is hidden**, and the name too if it is the same word. -/
theorem Secret.hide (h : Secret k mid v) : ∃ k', (k' = k ∨ k' = "[REDACTED]".toList) ∧
    hide v (k ++ (mid ++ v)) = k' ++ (mid ++ "[REDACTED]".toList) := by
  have hv : v ≠ [] := List.ne_nil_of_length_pos (by have := h.long; omega)
  have hend : ∀ prev, Regex.pieces (.word v) 0 prev v = [.inr v] := by
    intro prev
    have : Regex.pieces (.word v) 0 prev (v ++ []) = _ := pieces_match (matches_word hv)
    rwa [List.append_nil] at this
  by_cases hk : k = v
  · have hmid : ∀ prev, Skips (.word v) prev mid v := fun prev =>
      skips_word fun a b hab hb => h.not_begins hb fun c hc => by simp [hab, hc]
    refine ⟨_, .inr rfl, ?_⟩
    rw [SecretRedactionPolicy.hide, sub_eq, hk, pieces_match (matches_word hv),
      pieces_append (hmid _), hend]
    exact congrArg _ join_append_inr
  · have hskip : Skips (.word v) none (k ++ mid) (v ++ []) := h.skips hk
    rw [List.append_nil] at hskip
    refine ⟨k, .inl rfl, ?_⟩
    rw [SecretRedactionPolicy.hide, sub_eq, ← List.append_assoc, pieces_append hskip, hend,
      join_append_inr]
    simp [join]

/-! ## What is left of a text -/

/-- Behind the first colon there is no secret. -/
theorem Secret.not_behind (h : Secret k mid v) {a sp : List Char} {c : Char}
    (ha : ∀ d ∈ a, d ≠ ':' ∧ d ≠ '=') (hsp : ∀ d ∈ sp, isSpace d = true) :
    ¬k ++ (mid ++ v) <:+: a ++ c :: sp := by
  rintro ⟨x, y, hxy⟩
  obtain ⟨sp₁, c', sp₂, rfl, -, hc', -⟩ := h.colon
  have hlong := h.long
  obtain ⟨d, v', rfl⟩ := List.exists_cons_of_ne_nil (show v ≠ [] from
    List.ne_nil_of_length_pos (by omega))
  have hd : d ∈ sp := by
    have heq : (x ++ k ++ sp₁) ++ c' :: (sp₂ ++ (d :: (v' ++ y))) = a ++ c :: sp := by
      rw [← hxy]
      simp
    rcases List.append_eq_append_iff.1 heq with ⟨a', rfl, ha'⟩ | ⟨a', -, ha'⟩
    · cases a' with
      | nil => simp [← (List.cons.inj ha').2]
      | cons e a' =>
        obtain ⟨rfl, -⟩ := List.cons.inj ha'
        have := ha c' (by simp)
        rcases hc' with rfl | rfl <;> simp at this
    · cases a' with
      | nil => simp [(List.cons.inj ha').2]
      | cons e a' => simp [(List.cons.inj ha').2]
  have := not_isSpace (h.value d List.mem_cons_self)
  rw [hsp d hd] at this
  cases this

theorem isSecretChar_ne {c d : Char} (hc : isSecretChar c = true) (hd : isSecretChar d = false) :
    c ≠ d := by
  rintro rfl
  rw [hc] at hd
  cases hd

theorem isSpace_ne {c d : Char} (hc : isSpace c = true) (hd : isSpace d = false) : c ≠ d := by
  rintro rfl
  rw [hc] at hd
  cases hd

/-- A name, a colon and a secret have no brackets. -/
theorem Secret.avoid (h : Secret k mid v) {b : Char} (hb : b = '[' ∨ b = ']') :
    b ∉ k ++ (mid ++ v) := by
  have hsecret : isSecretChar b = false := by rcases hb with rfl | rfl <;> decide
  have hspace : isSpace b = false := by rcases hb with rfl | rfl <;> decide
  have hcolon : b ≠ ':' ∧ b ≠ '=' := by rcases hb with rfl | rfl <;> decide
  obtain ⟨sp, c, sp', rfl, hsp, hc, hsp'⟩ := h.colon
  intro hmem
  simp only [List.mem_append, List.mem_cons] at hmem
  rcases hmem with hk | (hs | rfl | hs) | hv
  · exact isSecretChar_ne (h.name b hk) hsecret rfl
  · exact isSpace_ne (hsp b hs) hspace rfl
  · exact hc.elim hcolon.1 hcolon.2
  · exact isSpace_ne (hsp' b hs) hspace rfl
  · exact isSecretChar_ne (h.value b hv) hsecret rfl

/-- They do not lie in the label. -/
theorem Secret.not_in_label (h : Secret k mid v) :
    ¬k ++ (mid ++ v) <:+: "REDACTED".toList := by
  intro hinfix
  obtain ⟨sp, c, sp', rfl, -, hc, -⟩ := h.colon
  have hmem := hinfix.subset (show c ∈ k ++ (sp ++ c :: sp' ++ v) by simp)
  rcases hc with rfl | rfl <;> exact absurd hmem (by decide)

/-- What stands before the hidden secret contains none. -/
theorem not_in_before {l : Language Char} (hl : pattern.Denotes l)
    (hsecret : ∀ w ∈ l, ∃ k mid v, w = k ++ (mid ++ v) ∧ Secret k mid v) (hw : w ∈ l)
    (h : Secret k mid v) (hs : Skips pattern prev s (k ++ (mid ++ v) ++ t)) :
    ¬w <:+: s ∧ ¬w <:+: mid ∧ ¬w <:+: s ++ (k ++ mid) := by
  have hstart : ∀ x a y, s = x ++ a → a ≠ [] → a ++ (k ++ (mid ++ v) ++ t) ≠ w ++ y := by
    intro x a y hx ha heq
    exact hl.ends_ne hw (heq ▸ hs x a hx ha)
  have hne : w ≠ [] := by
    rintro rfl
    obtain ⟨k₀, mid₀, v₀, hw₀, h₀⟩ := hsecret _ hw
    have := h₀.long
    rw [(List.append_eq_nil_iff.1 (List.append_eq_nil_iff.1 hw₀.symm).2).2] at this
    cases this
  have hbehind : ∀ a, (∀ c ∈ a, isSecretChar c = true) → ¬w <:+: a ++ mid := by
    intro a ha
    obtain ⟨k₀, mid₀, v₀, rfl, h₀⟩ := hsecret w hw
    obtain ⟨sp, c, sp', rfl, hsp, -, hsp'⟩ := h.colon
    rw [← List.append_assoc a]
    refine h₀.not_behind (fun d hd => ?_) hsp'
    rcases List.mem_append.1 hd with hd | hd
    · exact ⟨isSecretChar_ne (ha d hd) (by decide), isSecretChar_ne (ha d hd) (by decide)⟩
    · exact ⟨isSpace_ne (hsp d hd) (by decide), isSpace_ne (hsp d hd) (by decide)⟩
  refine ⟨?_, hbehind [] (by simp), ?_⟩
  · rintro ⟨x, y, rfl⟩
    exact hstart x (w ++ y) (y ++ (k ++ (mid ++ v) ++ t)) (List.append_assoc ..)
      (by simp [hne]) (List.append_assoc ..)
  · rintro ⟨x, y, hxy⟩
    rw [List.append_assoc] at hxy
    rcases List.append_eq_append_iff.1 hxy with ⟨a, rfl, ha⟩ | ⟨a, -, ha⟩
    · cases a with
      | nil => exact hbehind k h.name ⟨[], y, by simpa using ha⟩
      | cons d a =>
        refine hstart x (d :: a) (y ++ (v ++ t)) rfl (List.cons_ne_nil _ _) ?_
        rw [← List.append_assoc w, ha]
        simp
    · exact hbehind k h.name ⟨a, y, by rw [ha, List.append_assoc]⟩

theorem pattern_proper : pattern.Proper :=
  proper_seq (.inr (proper_seq (.inr (proper_seq (.inl proper_char)))))

/-- **No secret is left.** -/
theorem redactText_clear {s : String} : ¬pattern.Occurs none (redactText s).1.toList := by
  obtain ⟨l, hl, hsecret⟩ := pattern_denotes
  rw [hl.occurs_iff, redactText, subn, String.toList_ofList, sub_eq]
  rintro ⟨w, hw, h⟩
  obtain ⟨hb, hb', hlabel⟩ : '[' ∉ w ∧ ']' ∉ w ∧ ¬w <:+: "REDACTED".toList := by
    obtain ⟨k, mid, v, rfl, hsec⟩ := hsecret w hw
    exact ⟨hsec.avoid (.inl rfl), hsec.avoid (.inr rfl), hsec.not_in_label⟩
  -- what is left is cut at the brackets of the labels
  have hcut : ∀ a b : List Char, w <:+: a ++ ("[REDACTED]".toList ++ b) → w <:+: a ∨ w <:+: b := by
    intro a b h
    refine (infix_append_cons (t := "REDACTED".toList ++ ']' :: b) hb h).imp_right fun h => ?_
    exact (infix_append_cons hb' h).resolve_left hlabel
  refine pieces_induct
    (P := fun _ _ ps => ¬w <:+: join (fun m => SecretRedactionPolicy.hide (group m) m) ps)
    pattern_proper (fun prev text hn h => ?_) (fun prev s m t ps hs hm ih h => ?_) none _ h
  · rw [join_map_inl] at h
    exact hn (hl.occurs_iff.2 ⟨w, hw, h⟩)
  · obtain ⟨w', hm', hread⟩ := (hl _ _).1 (List.mem_of_mem_head? hm.2)
    obtain rfl := hread.word_unique (show Pos.Reads _ m _ from ⟨rfl, rfl⟩)
    obtain ⟨k, mid, v, rfl, hsec⟩ := hsecret _ hm'
    obtain ⟨k', hk', hhide⟩ := hsec.hide
    obtain ⟨hbefore, hmid, hname⟩ := not_in_before hl hsecret hw hsec hs
    rw [join_append_inr, hsec.group, hhide] at h
    rcases hcut (s ++ (k' ++ mid)) _ (by simpa only [List.append_assoc] using h) with h | h
    · rcases hk' with rfl | rfl
      · exact hname h
      · exact (hcut s mid h).elim hbefore hmid
    · exact ih h

end

end SecretRedactionPolicy

end TracciaRuntime
