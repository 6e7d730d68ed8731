import IdMint.Proofs.Arguments

/-!
# Arguments can be read in parts

A list of arguments may be cut in two and the second part read where the first has
stopped, with the configuration that it left. What an argument is taken for
depends on what stands before it in two ways only: it is the value of a flag, or the
mark has been passed. So the cut must not come after the mark, and not between a
flag and its value.

The first part alone tells whether it is such a one, and the condition is not
only enough. After any other first part the two marks `--` `--` are taken for
something else than they are at the beginning of a list.
-/

namespace IdMint.Command

variable {γ : Type}

/-- The arguments that follow the piece are not taken for what they are by themselves. -/
inductive Piece.ReachesOn : Piece γ → Prop
  | separator : ReachesOn .separator
  | dangling (flag : Flag γ) : ReachesOn (.dangling flag)

instance : DecidablePred (Piece.ReachesOn (γ := γ))
  | .separator => .isTrue .separator
  | .dangling flag => .isTrue (.dangling flag)
  | .plain _ => .isFalse nofun
  | .valued _ _ => .isFalse nofun
  | .unknown _ => .isFalse nofun
  | .positional _ => .isFalse nofun

/-- No flag at the end of the arguments waits for its value, and no mark is among the pieces. -/
def IsWhole (flags : List (Flag γ)) (arguments : List Bytes) : Prop :=
  ∃ pieces : List (Piece γ), WellCut flags pieces ∧ pieces.flatMap Piece.arguments = arguments ∧
    ∀ piece ∈ pieces, ¬ piece.ReachesOn

theorem isWhole_iff {flags : List (Flag γ)} {arguments : List Bytes} :
    IsWhole flags arguments ↔ ∀ piece ∈ cut flags arguments, ¬ piece.ReachesOn := by
  constructor
  · rintro ⟨pieces, hcut, rfl, hwhole⟩
    rw [cut_flatMap hcut]
    exact hwhole
  · intro h
    exact ⟨_, wellCut_cut flags arguments, flatMap_cut flags arguments, h⟩

/-! ## The first part reaches no further -/

theorem cut_append {flags : List (Flag γ)} {first : List Bytes}
    (h : ∀ piece ∈ cut flags first, ¬ piece.ReachesOn) (second : List Bytes) :
    cut flags (first ++ second) = cut flags first ++ cut flags second := by
  fun_induction cut flags first with
  | case1 => rfl
  | case2 rest => exact absurd .separator (h _ (List.mem_cons_self ..))
  | case3 argument hmark flag hflag htakes =>
      exact absurd (.dangling flag) (h _ (List.mem_cons_self ..))
  | case4 argument hmark flag hflag htakes value rest ih =>
      have hrest := ih fun piece hpiece => h piece (List.mem_cons_of_mem _ hpiece)
      rw [List.cons_append, List.cons_append, cut.eq_def]
      simp only [if_neg hmark, hflag, if_pos htakes, hrest, List.cons_append]
  | case5 argument rest hmark flag hflag htakes ih =>
      have hrest := ih fun piece hpiece => h piece (List.mem_cons_of_mem _ hpiece)
      rw [List.cons_append, cut.eq_def]
      simp only [if_neg hmark, hflag, if_neg htakes, hrest, List.cons_append]
  | case6 argument rest hmark hflag ih =>
      have hrest := ih fun piece hpiece => h piece (List.mem_cons_of_mem _ hpiece)
      rw [List.cons_append, cut.eq_def]
      simp only [if_neg hmark, hflag, hrest, List.cons_append]

theorem answers_append (config : γ) (calls others : List (Flag γ × Bytes)) :
    answers config (calls ++ others)
      = answers config calls ++ answers (configAfter config calls) others := by
  induction calls generalizing config with
  | nil => rfl
  | cons call calls ih => exact congrArg (List.cons _) (ih _)

theorem written_append (config : γ) (pieces others : List (Piece γ)) :
    written config (pieces ++ others) = written config pieces
      ++ written (configAfter config (pieces.filterMap Piece.call?)) others := by
  induction pieces generalizing config with
  | nil => rfl
  | cons piece pieces ih =>
      cases piece with
      | plain flag | valued flag value =>
          simp only [List.cons_append, written, Piece.call?, ih, List.append_assoc,
            List.filterMap_cons, configAfter, List.foldl_cons]
      | separator | dangling flag | unknown argument | positional argument =>
          simp only [List.cons_append, written, Piece.call?, ih, List.append_assoc,
            List.filterMap_cons]

/-- What two lists of arguments come to, the second being read after the first. -/
def Parsed.andThen (first second : Parsed γ) : Parsed γ where
  config := second.config
  positional := first.positional ++ second.positional
  isFine := first.isFine && second.isFine
  report := first.report ++ second.report

theorem summary_append (config : γ) (pieces others : List (Piece γ)) :
    summary config (pieces ++ others)
      = (summary config pieces).andThen (summary (summary config pieces).config others) := by
  simp only [summary, Parsed.andThen, List.filterMap_append, answers_append, written_append,
    List.all_append, configAfter, List.foldl_append, Bool.and_assoc, Bool.and_left_comm]

theorem parseOptions_arguments_append {flags : List (Flag γ)} {first : List Bytes}
    (h : IsWhole flags first) (second : List Bytes) (config : γ) :
    parseOptions flags (first ++ second) config
      = (parseOptions flags first config).andThen
          (parseOptions flags second (parseOptions flags first config).config) := by
  rw [parseOptions_eq_summary, parseOptions_eq_summary, parseOptions_eq_summary,
    cut_append (isWhole_iff.mp h), summary_append]

theorem parseOptions_separator (flags : List (Flag γ)) (arguments : List Bytes) (config : γ) :
    parseOptions flags (ascii "--" :: arguments) config = { config, positional := arguments } := by
  rw [parseOptions, if_pos rfl]

/-! ## The condition is needed -/

theorem filterMap_positional (arguments : List Bytes) :
    (arguments.map (Piece.positional (γ := γ))).filterMap Piece.positional? = arguments := by
  rw [List.filterMap_map]
  exact List.filterMap_some

theorem exists_reachesOn_of_cons {piece : Piece γ} {pieces : List (Piece γ)}
    (hpiece : ¬ piece.ReachesOn) (h : ∃ p ∈ piece :: pieces, p.ReachesOn) :
    ∃ p ∈ pieces, p.ReachesOn := by
  obtain ⟨p, hp, hreaches⟩ := h
  rcases List.mem_cons.mp hp with rfl | hp
  · exact absurd hreaches hpiece
  · exact ⟨p, hp, hreaches⟩

/-- Of two marks at the beginning of a list the second is positional. After a mark both of
them are, and after a flag that waits for its value none. -/
theorem length_positional_ne {flags : List (Flag γ)} {first : List Bytes}
    (h : ∃ piece ∈ cut flags first, piece.ReachesOn) :
    ((cut flags (first ++ [ascii "--", ascii "--"])).filterMap Piece.positional?).length
      ≠ ((cut flags first).filterMap Piece.positional?).length + 1 := by
  fun_induction cut flags first with
  | case1 =>
      obtain ⟨_, hpiece, _⟩ := h
      cases hpiece
  | case2 rest =>
      rw [List.cons_append, cut, if_pos rfl, List.filterMap_cons_none rfl,
        List.filterMap_cons_none rfl, filterMap_positional, filterMap_positional,
        List.length_append, List.length_cons, List.length_singleton]
      omega
  | case3 argument hmark flag hflag htakes =>
      -- The first mark is the value, and the second is the mark.
      rw [List.singleton_append, cut.eq_def]
      simp only [if_neg hmark, hflag, if_pos htakes]
      rw [cut, if_pos rfl]
      exact Nat.zero_ne_one
  | case4 argument hmark flag hflag htakes value rest ih =>
      rw [List.cons_append, List.cons_append, cut.eq_def]
      simp only [if_neg hmark, hflag, if_pos htakes]
      exact ih (exists_reachesOn_of_cons (by rintro ⟨⟩) h)
  | case5 argument rest hmark flag hflag htakes ih =>
      rw [List.cons_append, cut.eq_def]
      simp only [if_neg hmark, hflag, if_neg htakes]
      exact ih (exists_reachesOn_of_cons (by rintro ⟨⟩) h)
  | case6 argument rest hmark hflag ih =>
      rw [List.cons_append, cut.eq_def]
      simp only [if_neg hmark, hflag]
      by_cases hlooks : LooksLikeOption argument
      · rw [if_pos hlooks] at h ⊢
        exact ih (exists_reachesOn_of_cons (by rintro ⟨⟩) h)
      · rw [if_neg hlooks] at h ⊢
        have hlength := ih (exists_reachesOn_of_cons (by rintro ⟨⟩) h)
        exact mt Nat.succ.inj hlength

/-- The arguments in front are whole exactly if two marks after them are taken for what they
are at the beginning of a list. -/
theorem isWhole_iff_positional {flags : List (Flag γ)} {first : List Bytes} {config : γ} :
    IsWhole flags first ↔
      (parseOptions flags (first ++ [ascii "--", ascii "--"]) config).positional
        = (parseOptions flags first config).positional ++ [ascii "--"] := by
  constructor
  · intro h
    rw [parseOptions_arguments_append h, parseOptions_separator]
    rfl
  · intro h
    rw [parseOptions_eq_summary, parseOptions_eq_summary] at h
    rw [isWhole_iff]
    intro piece hpiece hreaches
    exact length_positional_ne ⟨piece, hpiece, hreaches⟩ (congrArg List.length h |>.trans
      List.length_append)

/-- Arguments can be read in parts. If the first part neither passes the mark nor ends on a flag
that waits for its value, then the whole list comes to what the second part comes to from the
configuration that the first one left: the positional arguments of the first part stand before
those of the second, the arguments are fine if both parts are, and what is reported is the one
report and then the other. If a mark stands between them, the second part is positional as it
is. No other first part has the first of these properties. -/
theorem arguments_read_in_parts (flags : List (Flag γ)) (first : List Bytes) (config : γ) :
    (IsWhole flags first →
      (∀ second,
        let whole := parseOptions flags (first ++ second) config
        let front := parseOptions flags first config
        let back := parseOptions flags second front.config
        whole.config = back.config ∧ whole.positional = front.positional ++ back.positional ∧
          whole.isFine = (front.isFine && back.isFine) ∧
          whole.report = front.report ++ back.report) ∧
      ∀ second,
        let front := parseOptions flags first config
        parseOptions flags (first ++ [ascii "--"] ++ second) config
          = { front with positional := front.positional ++ second }) ∧
    (¬ IsWhole flags first → ∃ second,
      (parseOptions flags (first ++ second) config).positional
        ≠ (parseOptions flags first config).positional
          ++ (parseOptions flags second (parseOptions flags first config).config).positional) := by
  constructor
  · intro h
    constructor
    · intro second
      simp only [parseOptions_arguments_append h]
      exact ⟨rfl, rfl, rfl, rfl⟩
    · intro second
      rw [List.append_assoc, List.singleton_append, parseOptions_arguments_append h]
      simp only [parseOptions_separator, Parsed.andThen, List.append_nil, Bool.and_true]
  · intro h
    refine ⟨[ascii "--", ascii "--"], ?_⟩
    rw [parseOptions_separator]
    exact mt isWhole_iff_positional.mpr h

/-- A first part with the mark as a value and with an argument that is refused: the second part
may have a mark of its own, or follow one. -/
theorem arguments_read_in_parts_behind_refusal :
    ∃ (flags : List (Flag (List Bytes))) (first second : List Bytes), IsWhole flags first ∧
      let front := parseOptions flags first []
      front.config = [ascii "--"] ∧ front.positional = [ascii "a"] ∧ front.isFine = false ∧
      let whole := parseOptions flags (first ++ second) []
      whole.config = [ascii "5", ascii "--"] ∧ whole.positional = [ascii "a", ascii "-k"] ∧
      whole.report = ascii "Unknown option: -x\n" ∧
      parseOptions flags (first ++ [ascii "--"] ++ second) []
        = { front with positional := ascii "a" :: second } := by
  let flags : List (Flag (List Bytes)) :=
    [{ name := ascii "-k", takesValue := true
       handle := fun value log => .accepted (value :: log) }]
  let first := [ascii "-x", ascii "a", ascii "-k", ascii "--"]
  let second := [ascii "-k", ascii "5", ascii "--", ascii "-k"]
  have hwhole : IsWhole flags first := isWhole_iff.mpr (by decide)
  obtain ⟨hparts, hmark⟩ := (arguments_read_in_parts flags first []).1 hwhole
  obtain ⟨hconfig, hpositional, -, hreport⟩ := hparts second
  refine ⟨flags, first, second, hwhole, by decide, by decide, by decide, ?_, ?_, ?_, ?_⟩
  · exact hconfig.trans (by decide)
  · exact hpositional.trans (by decide)
  · exact hreport.trans (by decide)
  · exact hmark second

end IdMint.Command
