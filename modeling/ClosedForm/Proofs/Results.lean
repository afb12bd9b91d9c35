import Mathlib.Data.List.Perm.Basic

/-!
# Computations that may fail

How a computation in `Except` succeeded or failed, read off its parts: for a sequence
(`bind_eq_ok`, `bind_eq_error`) and for one computation on every element of a list
(`mapM_eq_ok`, `exists_of_mapM_eq_error`, and `option_mapM_eq_some` for computations in `Option`); and
where a computation with a state goes on when its failure is handled (`run_tryCatch_of_error`).
-/

namespace ClosedForm

variable {ε α β : Type} {f : α → Except ε β}

/-- All computations succeeded, each with the result in its place. -/
theorem mapM_eq_ok {as : List α} {bs : List β} :
    as.mapM f = .ok bs ↔ List.Forall₂ (fun a b => f a = .ok b) as bs := by
  induction as generalizing bs with
  | nil =>
    constructor
    · intro h
      cases h
      exact .nil
    · rintro ⟨⟩
      rfl
  | cons a as ih =>
    rw [List.mapM_cons]
    constructor
    · intro h
      cases hfa : f a with
      | error e => rw [hfa] at h; cases h
      | ok b =>
        rw [hfa] at h
        cases hfas : as.mapM f with
        | error e => rw [hfas] at h; cases h
        | ok bs' =>
          rw [hfas] at h
          cases h
          exact .cons hfa (ih.mp hfas)
    · rintro (_ | ⟨ha, has⟩)
      rw [ha, ih.mpr has]
      rfl

/-- One of the computations failed, and those before it succeeded. -/
theorem exists_split_of_mapM_eq_error {as : List α} {e : ε} (h : as.mapM f = .error e) :
    ∃ before a after bs, as = before ++ a :: after ∧ before.mapM f = .ok bs ∧ f a = .error e := by
  induction as with
  | nil => cases h
  | cons a as ih =>
    rw [List.mapM_cons] at h
    cases hfa : f a with
    | error x =>
      rw [hfa] at h
      cases h
      exact ⟨[], a, as, [], rfl, rfl, hfa⟩
    | ok b =>
      rw [hfa] at h
      cases hfas : as.mapM f with
      | error x =>
        rw [hfas] at h
        cases h
        obtain ⟨before, c, after, bs, rfl, hbefore, hfc⟩ := ih hfas
        refine ⟨a :: before, c, after, b :: bs, rfl, ?_, hfc⟩
        rw [List.mapM_cons, hfa, hbefore]
        rfl
      | ok bs =>
        rw [hfas] at h
        cases h

theorem exists_of_mapM_eq_error {as : List α} {e : ε} (h : as.mapM f = .error e) :
    ∃ a ∈ as, f a = .error e := by
  obtain ⟨before, a, after, -, rfl, -, ha⟩ := exists_split_of_mapM_eq_error h
  exact ⟨a, by simp, ha⟩

/-- Elements that all have a partner have a list of partners. -/
theorem exists_forall₂ {R : α → β → Prop} {as : List α} (h : ∀ a ∈ as, ∃ b, R a b) :
    ∃ bs, List.Forall₂ R as bs := by
  induction as with
  | nil => exact ⟨[], .nil⟩
  | cons a as ih =>
    obtain ⟨b, hab⟩ := h a (by simp)
    obtain ⟨bs, hrest⟩ := ih fun c hc => h c (by simp [hc])
    exact ⟨b :: bs, .cons hab hrest⟩

/-- Computations that all succeed have results together. -/
theorem exists_mapM_eq_ok {R : α → β → Prop} {as : List α}
    (h : ∀ a ∈ as, ∃ b, f a = .ok b ∧ R a b) :
    ∃ bs, as.mapM f = .ok bs ∧ List.Forall₂ R as bs := by
  obtain ⟨bs, hbs⟩ := exists_forall₂ h
  exact ⟨bs, mapM_eq_ok.mpr (hbs.imp fun _ _ h => h.1), hbs.imp fun _ _ h => h.2⟩

/-- What the relation says of elements of the first list may use that they are in it. -/
theorem forall₂_imp_of_mem {α β : Type*} {R S : α → β → Prop} {as : List α} {bs : List β}
    (h : List.Forall₂ R as bs) (himp : ∀ a ∈ as, ∀ b, R a b → S a b) : List.Forall₂ S as bs := by
  induction h with
  | nil => exact .nil
  | @cons a b as bs hab _ ih =>
    exact .cons (himp a (by simp) b hab) (ih fun c hc => himp c (by simp [hc]))

theorem forall₂_and {R S : α → β → Prop} {as : List α} {bs : List β}
    (hR : List.Forall₂ R as bs) (hS : List.Forall₂ S as bs) :
    List.Forall₂ (fun a b => R a b ∧ S a b) as bs := by
  induction hR with
  | nil => exact .nil
  | cons hab _ ih =>
    obtain ⟨hab', hrest⟩ := List.forall₂_cons.mp hS
    exact .cons ⟨hab, hab'⟩ (ih hrest)

theorem forall₂_comp {γ : Type} {R : α → β → Prop} {S : β → γ → Prop} {as : List α} {bs : List β}
    {cs : List γ} (hR : List.Forall₂ R as bs) (hS : List.Forall₂ S bs cs) :
    List.Forall₂ (fun a c => ∃ b, R a b ∧ S b c) as cs := by
  induction hR generalizing cs with
  | nil =>
    cases hS
    exact .nil
  | cons hab _ ih =>
    cases hS with
    | cons hbc hS => exact .cons ⟨_, hab, hbc⟩ (ih hS)

theorem map_eq_of_forall₂ {γ : Type*} {f : α → γ} {g : β → γ} {as : List α} {bs : List β}
    (h : List.Forall₂ (fun a b => f a = g b) as bs) : as.map f = bs.map g := by
  rw [← List.forall₂_eq_eq_eq, List.forall₂_map_left_iff, List.forall₂_map_right_iff]
  exact h

/-- Two elements correspond to two elements. -/
theorem exists_of_forall₂_pair {α β : Type*} {R : α → β → Prop} {a b : α} {cs : List β}
    (h : List.Forall₂ R [a, b] cs) : ∃ c d, cs = [c, d] ∧ R a c ∧ R b d := by
  obtain ⟨c, rest, hc, hrest, rfl⟩ := List.forall₂_cons_left_iff.mp h
  obtain ⟨d, rest, hd, hnil, rfl⟩ := List.forall₂_cons_left_iff.mp hrest
  rw [List.forall₂_nil_left_iff.mp hnil]
  exact ⟨c, d, rfl, hc, hd⟩

/-- Every element of the second list has a partner in the first. -/
theorem exists_of_forall₂_right {R : α → β → Prop} {as : List α} {bs : List β}
    (h : List.Forall₂ R as bs) {b : β} (hb : b ∈ bs) : ∃ a ∈ as, R a b := by
  induction h with
  | nil => cases hb
  | cons hab _ ih =>
    rcases List.mem_cons.mp hb with rfl | hb
    · exact ⟨_, by simp, hab⟩
    · obtain ⟨a, ha, hab⟩ := ih hb
      exact ⟨a, by simp [ha], hab⟩

theorem bind_eq_ok {γ : Type} {result : Except ε α} {next : α → Except ε γ} {c : γ} :
    (result >>= next) = .ok c ↔ ∃ a, result = .ok a ∧ next a = .ok c := by
  cases result with
  | error e => exact ⟨fun h => (by cases h), fun ⟨_, h, _⟩ => (by cases h)⟩
  | ok a => exact ⟨fun h => ⟨a, rfl, h⟩, fun ⟨_, h, hnext⟩ => by cases h; exact hnext⟩

theorem bind_eq_error {γ : Type} {result : Except ε α} {next : α → Except ε γ} {e : ε} :
    (result >>= next) = .error e ↔
      result = .error e ∨ ∃ a, result = .ok a ∧ next a = .error e := by
  cases result with
  | error x =>
    refine ⟨fun h => .inl (by cases h; rfl), fun h => ?_⟩
    rcases h with h | ⟨_, h, _⟩
    · cases h
      rfl
    · cases h
  | ok a =>
    refine ⟨fun h => .inr ⟨a, rfl, h⟩, fun h => ?_⟩
    rcases h with h | ⟨_, h, hnext⟩
    · cases h
    · cases h
      exact hnext

/-- What follows a computation matters for the result that it gives only. -/
theorem bind_congr_of_ok {γ : Type} {result : Except ε α} {next next' : α → Except ε γ}
    (h : ∀ a, result = .ok a → next a = next' a) : (result >>= next) = (result >>= next') := by
  cases result with
  | error e => rfl
  | ok a => exact h a rfl

/-- What every step keeps, a successful fold keeps. -/
theorem foldlM_keeps {γ : Type} {P : γ → Prop} {f : γ → α → Except ε γ} {as : List α}
    (h : ∀ a ∈ as, ∀ start next, P start → f start a = .ok next → P next) {start last : γ}
    (hstart : P start) (hfold : as.foldlM f start = .ok last) : P last := by
  induction as generalizing start with
  | nil =>
    cases hfold
    exact hstart
  | cons a as ih =>
    rw [List.foldlM_cons] at hfold
    obtain ⟨next, hnext, hfold⟩ := bind_eq_ok.mp hfold
    exact ih (fun b hb => h b (by simp [hb])) (h a (by simp) start next hstart hnext) hfold

/-- The results of computations that each give a list, joined. -/
theorem exists_of_flatMapM {g : α → Except ε (List β)} {as : List α} {bs : List β}
    (h : as.flatMapM g = .ok bs) :
    ∃ bss, List.Forall₂ (fun a bs => g a = .ok bs) as bss ∧ bs = bss.flatten := by
  induction as generalizing bs with
  | nil =>
    rw [List.flatMapM_nil] at h
    cases h
    exact ⟨[], .nil, rfl⟩
  | cons a as ih =>
    rw [List.flatMapM_cons] at h
    obtain ⟨first, hfirst, h⟩ := bind_eq_ok.mp h
    obtain ⟨rest, hrest, h⟩ := bind_eq_ok.mp h
    cases h
    obtain ⟨bss, hbss, rfl⟩ := ih hrest
    exact ⟨first :: bss, .cons hfirst hbss, rfl⟩

/-- A computation on every pair of elements gives as many results as there are pairs. -/
theorem length_of_flatMapM_mapM {γ : Type} {g : α → β → Except ε γ} {as : List α} {bs : List β}
    {cs : List γ} (h : (as.flatMapM fun a => bs.mapM (g a)) = .ok cs) :
    cs.length = as.length * bs.length := by
  induction as generalizing cs with
  | nil =>
    rw [List.flatMapM_nil] at h
    cases h
    exact (Nat.zero_mul _).symm
  | cons a as ih =>
    rw [List.flatMapM_cons] at h
    obtain ⟨first, hfirst, h⟩ := bind_eq_ok.mp h
    obtain ⟨rest, hrest, h⟩ := bind_eq_ok.mp h
    cases h
    rw [List.length_append, ← (mapM_eq_ok.mp hfirst).length_eq, ih hrest, List.length_cons, Nat.succ_mul,
      Nat.add_comm]

theorem mapM_congr {g : α → Except ε β} {as : List α} (h : ∀ a ∈ as, f a = g a) :
    as.mapM f = as.mapM g := by
  induction as with
  | nil => rfl
  | cons a as ih =>
    rw [List.mapM_cons, List.mapM_cons, h a (by simp), ih fun b hb => h b (by simp [hb])]

/-- All computations gave something, each its result in its place. -/
theorem option_mapM_eq_some {α β : Type*} {f : α → Option β} {as : List α} {bs : List β} :
    as.mapM f = some bs ↔ List.Forall₂ (fun a b => f a = some b) as bs := by
  induction as generalizing bs with
  | nil =>
    constructor
    · intro h
      cases h
      exact .nil
    · rintro ⟨⟩
      rfl
  | cons a as ih =>
    rw [List.mapM_cons]
    constructor
    · intro h
      obtain ⟨b, hb, h⟩ := Option.bind_eq_some_iff.mp h
      obtain ⟨rest, hrest, h⟩ := Option.bind_eq_some_iff.mp h
      cases h
      exact .cons hb (ih.mp hrest)
    · rintro (_ | ⟨hb, hbs⟩)
      rw [ih.mpr hbs]
      exact Option.bind_eq_some_iff.mpr ⟨_, hb, rfl⟩

/-! ## Computations with a state -/

section State

variable {σ : Type} {action : ExceptT ε (StateM σ) α} {handler : ε → ExceptT ε (StateM σ) α} {s later : σ}

/-- A computation that ends well has no failure to handle. -/
theorem run_tryCatch_of_ok {value : α} (h : action.run.run s = (.ok value, later)) :
    (tryCatch action handler).run.run s = (.ok value, later) := by
  have h' : StateT.run (m := Id) (action : StateT σ Id _) s = (.ok value, later) := h
  simp only [tryCatch, tryCatchThe, MonadExceptOf.tryCatch, ExceptT.tryCatch, ExceptT.run_mk,
    StateT.run_bind]
  rw [h']
  rfl

/-- A failure is handled where it happened. -/
theorem run_tryCatch_of_error {x : ε} (h : action.run.run s = (.error x, later)) :
    (tryCatch action handler).run.run s = (handler x).run.run later := by
  have h' : StateT.run (m := Id) (action : StateT σ Id _) s = (.error x, later) := h
  simp only [tryCatch, tryCatchThe, MonadExceptOf.tryCatch, ExceptT.tryCatch, ExceptT.run_mk,
    StateT.run_bind]
  rw [h']
  rfl

end State

end ClosedForm
