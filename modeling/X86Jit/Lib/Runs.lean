import Mathlib.Data.List.Induction
import Mathlib.Data.List.Infix

/-! Runs of a state machine given by a partial step function, and histories of calls.
The invariant rules here are what every safety result is assembled from. -/
namespace X86Jit.Lib
open List Option

theorem bind_eq_ok {ε α β : Type} {x : Except ε α} {f : α → Except ε β} {b : β} :
    (x >>= f) = .ok b ↔ ∃ a, x = .ok a ∧ f a = .ok b := by
  cases x with
  | error e => simp [bind, Except.bind]
  | ok a => simp [bind, Except.bind]

variable {σ α : Type*} (step : σ → α → Option σ)

def run (s : σ) : List α → Option σ
  | [] => some s
  | a :: l => (step s a).bind fun s' => run s' l

def AllSteps (ok : σ → α → Prop) : σ → List α → Prop
  | _, [] => True
  | s, a :: l => ok s a ∧ ∀ s', step s a = some s' → AllSteps ok s' l

variable {step} {s s' : σ} {a : α} {l : List α}

theorem run_cons :
    run step s (a :: l) = some s' ↔ ∃ t, step s a = some t ∧ run step t l = some s' := by
  rw [run, bind_eq_some_iff]

theorem run_append {l' : List α} :
    run step s (l ++ l') = (run step s l).bind fun t => run step t l' := by
  induction l generalizing s with
  | nil => rfl
  | cons a l ih =>
    show (step s a).bind _ = ((step s a).bind _).bind _
    rw [bind_assoc]
    exact bind_congr fun t _ => ih

theorem run_concat :
    run step s (l ++ [a]) = some s' ↔ ∃ t, run step s l = some t ∧ step t a = some s' := by
  rw [run_append, bind_eq_some_iff]
  apply exists_congr
  intro t
  apply and_congr_right
  intro _
  show (step t a).bind some = some s' ↔ step t a = some s'
  rw [bind_fun_some]

variable {ok : σ → α → Prop}

theorem AllSteps.cons {t : σ} (hok : ok s a)
    (hstep : step s a = some t) (hl : AllSteps step ok t l) : AllSteps step ok s (a :: l) := by
  refine ⟨hok, ?_⟩
  intro s' hs'
  rw [hstep, some.injEq] at hs'
  rwa [← hs']

theorem AllSteps.and {ok' : σ → α → Prop} (h : AllSteps step ok s l) (h' : AllSteps step ok' s l) :
    AllSteps step (fun s a => ok s a ∧ ok' s a) s l := by
  induction l generalizing s with
  | nil => trivial
  | cons a l ih =>
    refine ⟨⟨h.1, h'.1⟩, ?_⟩
    intro s' hs'
    exact ih (h.2 s' hs') (h'.2 s' hs')

theorem allSteps_of_forall {P : α → Prop} (hP : ∀ a ∈ l, P a) :
    AllSteps step (fun _ a => P a) s l := by
  induction l generalizing s with
  | nil => trivial
  | cons a l ih =>
    refine ⟨hP a mem_cons_self, ?_⟩
    intro s' _
    exact ih fun b hb => hP b (mem_cons_of_mem a hb)

theorem AllSteps.and_forall {P : α → Prop}
    (h : AllSteps step ok s l) (hP : ∀ a ∈ l, P a) : AllSteps step (fun s a => P a ∧ ok s a) s l :=
  (allSteps_of_forall hP).and h

theorem AllSteps.invariant (Inv : σ → Prop)
    (hstep : ∀ s a s', Inv s → ok s a → step s a = some s' → Inv s')
    (hs : Inv s) (hok : AllSteps step ok s l) (hrun : run step s l = some s') : Inv s' := by
  induction l generalizing s with
  | nil =>
    cases hrun
    exact hs
  | cons a l ih =>
    obtain ⟨t, ht, hl⟩ := run_cons.mp hrun
    exact ih (hstep s a t hs hok.1 ht) (hok.2 t ht) hl

theorem AllSteps.imp {P : σ → α → Prop} (Inv : σ → Prop)
    (hstep : ∀ s a s', Inv s → ok s a → step s a = some s' → Inv s')
    (hP : ∀ s a, Inv s → ok s a → P s a) (hs : Inv s)
    (hok : AllSteps step ok s l) : AllSteps step P s l := by
  induction l generalizing s with
  | nil => trivial
  | cons a l ih =>
    refine ⟨hP s a hs hok.1, ?_⟩
    intro s' hs'
    exact ih (hstep s a s' hs hok.1 hs') (hok.2 s' hs')

/-- Two properties of steps that agree under an invariant agree on whole runs, if the steps keep it.
-/
theorem allSteps_congr_of {P Q : σ → α → Prop} (Inv : σ → Prop)
    (hstep : ∀ s a s', Inv s → P s a → step s a = some s' → Inv s')
    (hiff : ∀ s a, Inv s → (P s a ↔ Q s a)) (hs : Inv s) :
    AllSteps step P s l ↔ AllSteps step Q s l := by
  induction l generalizing s with
  | nil => rfl
  | cons a l ih =>
    constructor
    · intro h
      refine ⟨(hiff s a hs).mp h.1, ?_⟩
      intro s' hs'
      exact (ih (hstep s a s' hs h.1 hs')).mp (h.2 s' hs')
    · intro h
      have hP := (hiff s a hs).mpr h.1
      refine ⟨hP, ?_⟩
      intro s' hs'
      exact (ih (hstep s a s' hs hP hs')).mpr (h.2 s' hs')

theorem allSteps_congr {P Q : σ → α → Prop} (Inv : σ → Prop)
    (hstep : ∀ s a s', Inv s → step s a = some s' → Inv s')
    (hiff : ∀ s a, Inv s → (P s a ↔ Q s a)) (hs : Inv s) :
    AllSteps step P s l ↔ AllSteps step Q s l :=
  allSteps_congr_of Inv (fun s a s' hs _ => hstep s a s' hs) hiff hs

theorem allSteps_map {τ : Type*} {step' : τ → α → Option τ} (f : τ → σ)
    (hf : ∀ t a, (step' t a).map f = step (f t) a) {t : τ} :
    AllSteps step' (fun t a => ok (f t) a) t l ↔ AllSteps step ok (f t) l := by
  induction l generalizing t with
  | nil => rfl
  | cons a l ih =>
    refine and_congr_right fun _ => ?_
    constructor
    · intro h s' hs'
      rw [← hf, map_eq_some_iff] at hs'
      obtain ⟨t', ht', rfl⟩ := hs'
      exact ih.mp (h t' ht')
    · intro h t' ht'
      apply ih.mpr
      apply h
      rw [← hf, ht', map_some]

theorem run_invariant_of (Inv : σ → Prop) (P : α → Prop)
    (hstep : ∀ s a s', Inv s → P a → step s a = some s' → Inv s')
    (hs : Inv s) (hP : ∀ a ∈ l, P a) (hrun : run step s l = some s') : Inv s' := by
  induction l generalizing s with
  | nil =>
    cases hrun
    exact hs
  | cons a l ih =>
    obtain ⟨t, ht, hl⟩ := run_cons.mp hrun
    exact ih (hstep s a t hs (hP a mem_cons_self) ht)
      (fun b hb => hP b (mem_cons_of_mem a hb)) hl

theorem run_invariant (Inv : σ → Prop) (hstep : ∀ s a s', Inv s → step s a = some s' → Inv s')
    (hs : Inv s) (hrun : run step s l = some s') : Inv s' :=
  run_invariant_of Inv (fun _ => True) (fun s a s' hs _ h => hstep s a s' hs h) hs
    (fun _ _ => trivial) hrun

/-- A property of histories holds after every prefix exactly when every call is good: the invariant
gives the property, a good call keeps it, and a bad call made under it breaks the property at once.
-/
theorem forall_prefix_iff (Inv P : List α → Prop) (ok : List α → α → Prop) (h0 : Inv [])
    (hP : ∀ l, Inv l → P l)
    (hstep : ∀ pre a, pre ++ [a] <+: l → Inv pre → ok pre a → Inv (pre ++ [a]))
    (hbad : ∀ pre a, pre ++ [a] <+: l → Inv pre → ¬ ok pre a → ¬ P (pre ++ [a])) :
    (∀ pre, pre <+: l → P pre) ↔ ∀ pre a, pre ++ [a] <+: l → ok pre a := by
  constructor
  · intro hall
    have hinv : ∀ pre, pre <+: l → Inv pre ∧ ∀ q a, q ++ [a] <+: pre → ok q a := by
      intro pre
      induction pre using reverseRecOn with
      | nil =>
        intro _
        refine ⟨h0, ?_⟩
        intro q a hq
        simp at hq
      | append_singleton pre a ih =>
        intro hpre
        obtain ⟨hi, hqs⟩ := ih ((prefix_append pre [a]).trans hpre)
        have hok : ok pre a := by
          by_contra hno
          exact hbad pre a hpre hi hno (hall _ hpre)
        refine ⟨hstep pre a hpre hi hok, ?_⟩
        intro q b hq
        rcases List.prefix_concat_iff.mp hq with heq | hlt
        · obtain ⟨rfl, hab⟩ := append_inj' heq rfl
          cases hab
          exact hok
        · exact hqs q b hlt
    intro pre a hpre
    exact (hinv _ hpre).2 pre a prefix_rfl
  · intro hok pre
    suffices h : pre <+: l → Inv pre from fun hpre => hP pre (h hpre)
    induction pre using reverseRecOn with
    | nil => exact fun _ => h0
    | append_singleton pre a ih =>
      intro hpre
      exact hstep pre a hpre (ih ((prefix_append pre [a]).trans hpre)) (hok pre a hpre)

/-- An event that `A` admits after the history before it, and no event that `B` names
since. -/
def Since (A : List α → α → Prop) (B : α → Prop) (history : List α) : Prop :=
  ∃ before e later, history = before ++ e :: later ∧ A before e ∧ ∀ b ∈ later, ¬B b

variable {A : List α → α → Prop} {B : α → Prop}

theorem not_since_nil : ¬Since A B [] := by
  rintro ⟨before, e, later, h, -⟩
  cases before <;> cases h

theorem since_concat {history : List α} {e : α} :
    Since A B (history ++ [e]) ↔ A history e ∨ (Since A B history ∧ ¬B e) := by
  constructor
  · rintro ⟨before, a, later, heq, hA, hB⟩
    -- The admitted event is the last one, or the last one comes after it.
    rcases eq_nil_or_concat later with rfl | ⟨init, b, rfl⟩
    · obtain ⟨rfl, hsame⟩ := append_inj' heq rfl
      cases hsame
      exact Or.inl hA
    · rw [concat_eq_append] at heq hB
      have heq' : history ++ [e] = (before ++ a :: init) ++ [b] := by
        rw [heq, List.append_assoc, List.cons_append]
      obtain ⟨rfl, hsame⟩ := append_inj' heq' rfl
      cases hsame
      refine Or.inr ⟨⟨before, a, init, rfl, hA, ?_⟩, ?_⟩
      · exact fun c hc => hB c (mem_append_left _ hc)
      · exact hB e (mem_append_right _ (mem_singleton_self e))
  · rintro (hA | ⟨⟨before, a, later, rfl, hA, hB⟩, he⟩)
    · exact ⟨history, e, [], rfl, hA, fun b hb => absurd hb not_mem_nil⟩
    · refine ⟨before, a, later ++ [e], by rw [List.append_assoc, List.cons_append], hA, ?_⟩
      intro b hb
      rcases List.mem_append.mp hb with hb | hb
      · exact hB b hb
      · rw [List.mem_singleton.mp hb]
        exact he

end X86Jit.Lib
