import IdMint.Supply

/-!
# What a supply has given

A search tells which value it found and where the supply stands afterwards.
What it passed over on the way is gone, but most of what can be said about a
wait is about those values. `Gives` keeps them: it relates a supply to the
values it gave, in order, and to the supply that is left.

Supplies count what they give, so the two ends determine the values between
them, and a statement may speak of the readings of a call as one speaks of
its result.
-/

namespace IdMint.Supply

variable {σ α : Type} [Source σ α]

/-- From the first supply on the values are given, in order, and the second
supply is left. -/
inductive Gives : Supply σ → List α → Supply σ → Prop
  | nil {s : Supply σ} : Gives s [] s
  | cons {state later : σ} {asked allowance : Nat} {a : α} {as : List α} {s' : Supply σ}
      (hnext : Source.next state = (a, later))
      (hrest : Gives { state := later, asked := asked + 1, allowance } as s') :
      Gives { state, asked, allowance := allowance + 1 } (a :: as) s'

theorem Gives.asked_eq {s s' : Supply σ} {as : List α} (h : Gives s as s') :
    s'.asked = s.asked + as.length := by
  induction h with
  | nil => rfl
  | cons _ _ ih =>
      rw [ih, List.length_cons]
      simp only []
      omega

theorem Gives.allowance_eq {s s' : Supply σ} {as : List α} (h : Gives s as s') :
    as.length + s'.allowance = s.allowance := by
  induction h with
  | nil => exact Nat.zero_add _
  | cons _ _ ih =>
      rw [List.length_cons, Nat.add_right_comm, ih]

theorem Gives.append {s s' s'' : Supply σ} {as bs : List α} (h : Gives s as s')
    (h' : Gives s' bs s'') : Gives s (as ++ bs) s'' := by
  induction h with
  | nil => exact h'
  | cons hnext _ ih => exact .cons hnext (ih h')

theorem gives_append_iff {s s'' : Supply σ} {as bs : List α} :
    s.Gives (as ++ bs) s'' ↔ ∃ s', s.Gives as s' ∧ s'.Gives bs s'' := by
  constructor
  · intro h
    induction as generalizing s with
    | nil => exact ⟨s, .nil, h⟩
    | cons a as ih =>
        cases h with
        | cons hnext hrest =>
            obtain ⟨s', has, hbs⟩ := ih hrest
            exact ⟨s', .cons hnext has, hbs⟩
  · rintro ⟨s', has, hbs⟩
    exact has.append hbs

/-- The two ends determine the values between them. -/
theorem Gives.unique {s s' : Supply σ} {as bs : List α} (h : Gives s as s')
    (h' : Gives s bs s') : as = bs := by
  induction h generalizing bs with
  | nil =>
      have hlen := h'.asked_eq
      exact (List.eq_nil_of_length_eq_zero (by omega)).symm
  | cons hnext hrest ih =>
      cases h' with
      | nil =>
          have hlen := hrest.asked_eq
          simp only at hlen
          omega
      | cons hnext' hrest' =>
          rw [hnext] at hnext'
          cases hnext'
          rw [ih hrest']

/-! ## Searches -/

theorem seek_go_eq_some {p : α → Bool} {a : α} {s' : Supply σ} :
    ∀ {allowance asked : Nat} {state : σ},
      seek.go p state asked allowance = some (a, s') →
      ∃ passed, Gives { state, asked, allowance } (passed ++ [a]) s' ∧
        (∀ x ∈ passed, p x = false) ∧ p a = true := by
  intro allowance
  induction allowance with
  | zero =>
      intro asked state h
      cases h
  | succ n ih =>
      intro asked state h
      rcases hnext : Source.next state with ⟨x, later⟩
      simp only [seek.go, hnext] at h
      split at h
      · next hp =>
          cases h
          exact ⟨[], .cons hnext .nil, by simp, hp⟩
      · next hp =>
          obtain ⟨passed, hgives, hpassed, hfound⟩ := ih h
          refine ⟨x :: passed, .cons hnext hgives, ?_, hfound⟩
          intro y hy
          rcases List.mem_cons.mp hy with rfl | hy
          · simpa using hp
          · exact hpassed y hy

theorem seek_go_of_gives {p : α → Bool} {a : α} {s s' : Supply σ} {as : List α}
    (h : s.Gives as s') :
    ∀ {passed : List α}, as = passed ++ [a] → (∀ x ∈ passed, p x = false) → p a = true →
      seek.go p s.state s.asked s.allowance = some (a, s') := by
  induction h with
  | nil =>
      intro passed has
      simp at has
  | @cons state later asked allowance x as s₁ hnext hrest ih =>
      intro passed has hpassed hfound
      simp only [seek.go, hnext]
      cases passed with
      | nil =>
          obtain ⟨rfl, rfl⟩ := List.cons.inj has
          cases hrest
          rw [if_pos hfound]
      | cons y passed =>
          obtain ⟨rfl, htail⟩ := List.cons.inj has
          have hy : ¬ p x = true := by simp [hpassed x (List.mem_cons_self ..)]
          rw [if_neg hy]
          exact ih htail (fun z hz => hpassed z (List.mem_cons_of_mem _ hz)) hfound

/-- A search finds a value exactly if the supply gives values without the property and
then that one. -/
theorem seek_eq_some_iff {p : α → Bool} {s s' : Supply σ} {a : α} :
    s.seek p = some (a, s') ↔
      ∃ passed, s.Gives (passed ++ [a]) s' ∧ (∀ x ∈ passed, p x = false) ∧ p a = true := by
  constructor
  · exact seek_go_eq_some
  · rintro ⟨passed, hgives, hpassed, hfound⟩
    exact seek_go_of_gives hgives rfl hpassed hfound

/-- A single question is answered by the next value. -/
theorem next?_eq_some_iff {s s' : Supply σ} {a : α} : s.next? = some (a, s') ↔ s.Gives [a] s' := by
  rw [next?, seek_eq_some_iff]
  constructor
  · rintro ⟨passed, hgives, hpassed, -⟩
    cases passed with
    | nil => exact hgives
    | cons x xs => exact Bool.noConfusion (hpassed x (List.mem_cons_self ..))
  · intro hgives
    exact ⟨[], hgives, by simp, rfl⟩

theorem exists_next? {s : Supply σ} (h : 0 < s.allowance) : ∃ a s', s.next? = some (a, s') := by
  obtain ⟨state, asked, allowance⟩ := s
  obtain ⟨allowance, rfl⟩ : ∃ n, allowance = n + 1 := ⟨allowance - 1, by simp only at h; omega⟩
  exact ⟨_, _, next?_eq_some_iff.mpr (.cons rfl .nil)⟩

/-! ## Two supplies of one source -/

/-- The second pair of supplies is at one point of the source, and as many values away from
the first pair each. -/
structure InStep (s t s' t' : Supply σ) : Prop where
  state : s'.state = t'.state
  asked : s'.asked + t.asked = t'.asked + s.asked

theorem InStep.trans {s t s' t' s'' t'' : Supply σ} (h : InStep s t s' t')
    (h' : InStep s' t' s'' t'') : InStep s t s'' t'' := by
  refine ⟨h'.state, ?_⟩
  have hfirst := h.asked
  have hsecond := h'.asked
  omega

/-- What a search finds depends on the source, not on what was given before or on how much
of the allowance is left over. -/
theorem seek_inStep {p : α → Bool} {s t s' t' : Supply σ} {a b : α} (hstate : s.state = t.state)
    (h : s.seek p = some (a, s')) (h' : t.seek p = some (b, t')) : a = b ∧ InStep s t s' t' := by
  have hgo : ∀ {n m asked asked' : Nat} {state : σ}, seek.go p state asked n = some (a, s') →
      seek.go p state asked' m = some (b, t') →
      a = b ∧ s'.state = t'.state ∧ s'.asked + asked' = t'.asked + asked := by
    intro n
    induction n with
    | zero =>
        intro m asked asked' state h
        cases h
    | succ n ih =>
        intro m asked asked' state h h'
        cases m with
        | zero => cases h'
        | succ m =>
            simp only [seek.go] at h h'
            split at h
            · next hp =>
                rw [if_pos hp] at h'
                cases h
                cases h'
                exact ⟨rfl, rfl, by simp only; omega⟩
            · next hp =>
                rw [if_neg hp] at h'
                obtain ⟨hfound, hlater, hasked⟩ := ih h h'
                exact ⟨hfound, hlater, by omega⟩
  rw [seek, hstate] at h
  obtain ⟨hfound, hlater, hasked⟩ := hgo h h'
  exact ⟨hfound, hlater, hasked⟩

/-- A tape with an allowance for its values gives them all. -/
theorem gives_tape (last : α) : ∀ (as : List α) (asked : Nat),
    (⟨⟨as, last⟩, asked, as.length⟩ : Supply (Tape α)).Gives as
      ⟨⟨[], last⟩, asked + as.length, 0⟩ := by
  intro as
  induction as with
  | nil => intro asked; exact .nil
  | cons a as ih =>
      intro asked
      have hrest := ih (asked + 1)
      rw [Nat.add_assoc, Nat.add_comm 1] at hrest
      exact .cons rfl hrest

end IdMint.Supply
