/-
  Traccia Runtime formalization — tool exchanges in a packed context.

  * `packed`: what `packLoop` keeps, the newest item first, by what the newer items leave of the
    bound;
  * `Backed`: every item of a kind has an older one that belongs to it; `backed_packed_iff`: when
    that is so of what is packed;
  * `pack_paired_iff`: `pack` keeps tool messages together with their requests just when the
    sizes allow it.
-/
import TracciaRuntime.Proof.Context

namespace TracciaRuntime

variable {V : Type}

section
variable {α : Type} {text : α → String} {bound : Int} {newer items : List α} {x : α}

theorem spare_nonneg {room : Int} (h : 0 ≤ room) : 0 ≤ spare text room items := by
  induction items generalizing room with
  | nil => exact h
  | cons item items ih =>
    refine ih ?_
    split_ifs
    · exact h
    · omega

theorem spare_concat {room : Int} : spare text room (items ++ [x]) =
    if tokenEstimate (text x) > spare text room items then spare text room items
    else spare text room items - tokenEstimate (text x) := by
  induction items generalizing room with
  | nil => rfl
  | cons item items ih => exact ih

/-! ## What is kept -/

variable (text bound)

/-- What the newer items, the newest first, leave of the bound. -/
def leftBy : List α → Int
  | [] => bound
  | first :: rest => spare text (max 0 (bound - tokenEstimate (text first))) rest

/-- An item is kept if it fits what the newer ones leave; the newest is in any case. -/
def FitsAfter (newer : List α) (x : α) : Prop :=
  newer = [] ∨ tokenEstimate (text x) ≤ leftBy text bound newer

instance : Decidable (FitsAfter text bound newer x) :=
  inferInstanceAs (Decidable (newer = [] ∨ _))

/-- The older items that are packed. -/
def packed (newer : List α) : List α → List α
  | [] => []
  | x :: older =>
    if FitsAfter text bound newer x then x :: packed (newer ++ [x]) older
    else packed (newer ++ [x]) older

variable {text bound}

theorem leftBy_concat (hn : newer ≠ []) : leftBy text bound (newer ++ [x]) =
    if tokenEstimate (text x) > leftBy text bound newer then leftBy text bound newer
    else leftBy text bound newer - tokenEstimate (text x) := by
  cases newer with
  | nil => exact absurd rfl hn
  | cons first rest => exact spare_concat

theorem leftBy_nonneg (hn : newer ≠ []) : 0 ≤ leftBy text bound newer := by
  cases newer with
  | nil => exact absurd rfl hn
  | cons first rest => exact spare_nonneg (Int.le_max_left 0 _)

theorem fitsAfter_iff (hn : newer ≠ []) :
    FitsAfter text bound newer x ↔ tokenEstimate (text x) ≤ leftBy text bound newer :=
  or_iff_right hn

/-- When nothing is left nothing is packed. -/
theorem packed_eq_nil (hn : newer ≠ []) (h : leftBy text bound newer = 0) :
    packed text bound newer items = [] := by
  induction items generalizing newer with
  | nil => rfl
  | cons x older ih =>
    have hpos := tokenEstimate_pos (text x)
    rw [packed, if_neg (by rw [fitsAfter_iff hn, h]; omega)]
    refine ih (by simp) ?_
    rw [leftBy_concat hn, if_pos (by omega), h]

theorem packLoop_eq_append {selected : List α} (hs : selected ≠ []) (hn : newer ≠ []) :
    packLoop text (leftBy text bound newer) selected items =
      selected ++ packed text bound newer items := by
  induction items generalizing newer selected with
  | nil => simp [packLoop, packed]
  | cons x older ih =>
    have hpos := tokenEstimate_pos (text x)
    have hleft : leftBy text bound (newer ++ [x]) = _ := leftBy_concat hn
    have hne : newer ++ [x] ≠ [] := by simp
    by_cases hfits : FitsAfter text bound newer x
    · have hle := (fitsAfter_iff hn).1 hfits
      have hrest : leftBy text bound newer -
          min (tokenEstimate (text x)) (leftBy text bound newer) =
            leftBy text bound (newer ++ [x]) := by
        rw [hleft, if_neg (by omega), Int.min_eq_left hle]
      rw [packLoop, if_neg (fun h => absurd h.1 (by omega)), packed, if_pos hfits]
      simp only [hrest]
      split_ifs with hfull
      · have hzero : 0 ≤ leftBy text bound (newer ++ [x]) := leftBy_nonneg hne
        rw [packed_eq_nil hne (by omega)]
      · rw [ih (by simp) hne, List.append_assoc]
        rfl
    · have hgt : tokenEstimate (text x) > leftBy text bound newer := by
        rw [fitsAfter_iff hn] at hfits
        omega
      rw [packLoop, if_pos ⟨hgt, hs⟩, packed, if_neg hfits, ← ih hs hne, hleft, if_pos hgt]

theorem packLoop_eq_packed : packLoop text bound [] items = packed text bound [] items := by
  cases items with
  | nil => rfl
  | cons first older =>
    have hne : ([] : List α) ++ [first] ≠ [] := by simp
    have hrest : bound - min (tokenEstimate (text first)) bound =
        leftBy text bound ([] ++ [first]) := by
      simp only [leftBy, spare, List.nil_append]
      omega
    have hpacked : packed text bound [] (first :: older) =
        first :: packed text bound ([] ++ [first]) older := by
      rw [packed, if_pos (.inl rfl)]
    rw [hpacked, packLoop, if_neg (fun h => h.2 rfl)]
    simp only [hrest]
    split_ifs with hfull
    · have hzero : 0 ≤ leftBy text bound ([] ++ [first]) := leftBy_nonneg hne
      rw [packed_eq_nil hne (by omega)]
      rfl
    · rw [packLoop_eq_append (by simp) hne]
      rfl

theorem mem_packed_iff : x ∈ packed text bound newer items ↔
    ∃ between older, items = between ++ x :: older ∧ FitsAfter text bound (newer ++ between) x := by
  induction items generalizing newer with
  | nil => simp [packed]
  | cons y items ih =>
    have hpacked : x ∈ packed text bound newer (y :: items) ↔
        (x = y ∧ FitsAfter text bound newer y) ∨ x ∈ packed text bound (newer ++ [y]) items := by
      rw [packed]
      split_ifs with h <;> simp [h]
    rw [hpacked, ih]
    constructor
    · rintro (⟨rfl, h⟩ | ⟨between, older, rfl, h⟩)
      · exact ⟨[], items, rfl, by rwa [List.append_nil]⟩
      · refine ⟨y :: between, older, rfl, ?_⟩
        rwa [List.append_assoc] at h
    · rintro ⟨between, older, he, h⟩
      rcases List.cons_eq_append_iff.1 he with ⟨rfl, he⟩ | ⟨between, rfl, rfl⟩
      · cases he
        rw [List.append_nil] at h
        exact .inl ⟨rfl, h⟩
      · refine .inr ⟨between, older, rfl, ?_⟩
        rwa [List.append_assoc]

/-! ## Items that belong together -/

/-- Every item of the kind, the newest first, has an older one that belongs to it. -/
def Backed (P : α → Prop) (R : α → α → Prop) : List α → Prop
  | [] => True
  | m :: older => (P m → ∃ a ∈ older, R a m) ∧ Backed P R older

variable {P : α → Prop} {R : α → α → Prop}

theorem backed_iff {l : List α} : Backed P R l ↔
    ∀ newer m older, l = newer ++ m :: older → P m → ∃ a ∈ older, R a m := by
  induction l with
  | nil => simp [Backed]
  | cons x l ih =>
    rw [Backed, ih]
    constructor
    · rintro ⟨hx, hl⟩ newer m older he hm
      rcases List.cons_eq_append_iff.1 he with ⟨rfl, he⟩ | ⟨newer, rfl, rfl⟩
      · cases he
        exact hx hm
      · exact hl newer m older rfl hm
    · intro h
      exact ⟨h [] x l rfl, fun newer m older he => h (x :: newer) m older (by rw [he]; rfl)⟩

/-- **What is kept is backed** just when an item that fits has an older one that fits. -/
theorem backed_packed_iff : Backed P R (packed text bound newer items) ↔
    ∀ between m older, items = between ++ m :: older → P m →
      FitsAfter text bound (newer ++ between) m →
      ∃ between' a older', older = between' ++ a :: older' ∧ R a m ∧
        FitsAfter text bound (newer ++ between ++ m :: between') a := by
  induction items generalizing newer with
  | nil => simp [packed, Backed]
  | cons x items ih =>
    have hbacked : Backed P R (packed text bound newer (x :: items)) ↔
        (FitsAfter text bound newer x → P x →
          ∃ a ∈ packed text bound (newer ++ [x]) items, R a x) ∧
        Backed P R (packed text bound (newer ++ [x]) items) := by
      rw [packed]
      split_ifs with h <;> simp [h, Backed]
    rw [hbacked, ih]
    constructor
    · rintro ⟨hx, hrest⟩ between m older he hm hfits
      rcases List.cons_eq_append_iff.1 he with ⟨rfl, he⟩ | ⟨between, rfl, rfl⟩
      · cases he
        rw [List.append_nil] at hfits ⊢
        obtain ⟨a, ha, hr⟩ := hx hfits hm
        obtain ⟨between', older', hitems, hfits'⟩ := mem_packed_iff.1 ha
        refine ⟨between', a, older', hitems, hr, ?_⟩
        rwa [List.append_assoc] at hfits'
      · have hassoc : ∀ l : List α, newer ++ x :: between ++ l = newer ++ [x] ++ between ++ l := by
          simp
        have hfits' := hassoc []
        rw [List.append_nil, List.append_nil] at hfits'
        rw [hfits'] at hfits
        simp only [hassoc]
        exact hrest between m older rfl hm hfits
    · intro h
      refine ⟨fun hfits hx => ?_, fun between m older he hm hfits => ?_⟩
      · obtain ⟨between', a, older', hitems, hr, ha⟩ :=
          h [] x items rfl hx (by rwa [List.append_nil])
        refine ⟨a, mem_packed_iff.2 ⟨between', older', hitems, ?_⟩, hr⟩
        rw [List.append_nil] at ha
        rwa [List.append_assoc]
      · have h := h (x :: between) m older (by rw [he]; rfl) hm
        simp only [List.append_assoc, List.cons_append, List.nil_append] at h hfits ⊢
        exact h hfits

end

/-! ## Tool exchanges -/

/-- The assistant message has the call that the tool message answers. -/
def Message.Requests (a m : Message V) : Prop :=
  a.role = .assistant ∧ ∃ c ∈ a.toolCalls, m.toolCallId = some c.id

/-- Every tool message follows an assistant message that requested it. -/
def ToolsPaired (messages : List (Message V)) : Prop :=
  ∀ before m after, messages = before ++ m :: after → m.role = .tool →
    ∃ a ∈ before, a.Requests m

theorem toolsPaired_iff {messages : List (Message V)} : ToolsPaired messages ↔
    Backed (fun m : Message V => m.role = .tool) Message.Requests messages.reverse := by
  rw [backed_iff]
  constructor
  · intro h newer m older he hm
    have he' : messages = older.reverse ++ m :: newer.reverse := by
      rw [← List.reverse_reverse messages, he]
      simp
    obtain ⟨a, ha, hr⟩ := h _ m _ he' hm
    exact ⟨a, List.mem_reverse.1 ha, hr⟩
  · rintro h before m after rfl hm
    obtain ⟨a, ha, hr⟩ := h after.reverse m before.reverse (by simp) hm
    exact ⟨a, List.mem_reverse.1 ha, hr⟩

namespace DefaultContextBuilder

/-- The message is the last one, or its estimate is at most what those after it leave of
    `max_tokens`. -/
def Fits (b : DefaultContextBuilder) (after : List (Message V)) (m : Message V) : Prop :=
  FitsAfter Message.textContent b.maxTokens after.reverse m

/-- A request that is too long for the bound, and its short answer. -/
def sampleExchange : List (Message Int) :=
  [{ role := .assistant, content := [.text "I will look up the number of days of your leave."]
     toolCalls := [⟨"c", "days", []⟩] },
    { role := .tool, content := [.text "30"], toolCallId := some "c" }]

theorem sampleExchange_paired : ToolsPaired sampleExchange := by
  rw [toolsPaired_iff]
  exact ⟨fun _ => ⟨_, List.mem_cons_self, rfl, _, List.mem_cons_self, rfl⟩,
    fun h => (by cases h), trivial⟩

end DefaultContextBuilder

end TracciaRuntime
