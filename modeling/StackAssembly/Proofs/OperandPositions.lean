import StackAssembly.Proofs.AssemblyOutcome

/-! Positions of operands. The operand tokens of a text are numbered from zero without a gap, a
label bears the number of the operand that comes next, and nothing else bears a position. -/
namespace StackAssembly.Token

variable {source : String} {before after : List Token} {t : Token}

theorem map_index_operands (source : String) :
    (operands (lex source)).map (·.index) =
      (List.range (operands (lex source)).length).map some := by
  apply List.ext_getElem
  · simp
  · intro i hi _
    rw [List.length_map] at hi
    have hsplit : operands (lex source) = (operands (lex source)).take i ++
        (operands (lex source))[i] :: (operands (lex source)).drop (i + 1) := by
      rw [List.getElem_cons_drop, List.take_append_drop]
    have hindex := index_of_operands_eq hsplit
    rw [List.length_take, Nat.min_eq_left (Nat.le_of_lt hi)] at hindex
    simpa using hindex

theorem index_of_uncounted (h : lex source = before ++ t :: after)
    (ht : (t.kind.isOperand || t.kind == .label) = false) : t.index = none := by
  rw [index_of_lex_eq h, ht]
  rfl

/-- As long as no operand is passed, the count stays. -/
theorem index_eq_of_label {between rest : List Token} {u : Token}
    (h : lex source = before ++ t :: (between ++ u :: rest)) (ht : t.kind = .label)
    (hbetween : operands between = []) (hu : u.kind.isOperand || u.kind == .label) :
    u.index = t.index := by
  have hskip : operands (before ++ t :: between) = operands before := by
    have hlabel : operands (t :: between) = operands between :=
      List.filter_cons_of_neg (by simp [ht, TokenKind.isOperand])
    rw [operands_append, hlabel, hbetween, List.append_nil]
  have hindex : u.index = some (operands (before ++ t :: between)).length :=
    index_of_counted (by simpa using h) hu
  rw [hindex, hskip, index_of_counted h (by simp [ht])]

/-- A label with no operand behind it bears the number of all operands. -/
theorem index_of_last_label (h : lex source = before ++ t :: after) (ht : t.kind = .label)
    (hafter : operands after = []) : t.index = some (operands (lex source)).length := by
  have hlabel : operands (t :: after) = operands after :=
    List.filter_cons_of_neg (by simp [ht, TokenKind.isOperand])
  rw [h, operands_append, hlabel, hafter, List.append_nil]
  exact index_of_counted h (by simp [ht])

/-- In every text the operands bear the positions 0, 1, 2 and so on. A label bears the number of
operands before it: that is the position of the next operand, also of the labels up to there, and
the number of all operands if none comes. Comments and the ends of lines and of the input bear no
position. -/
theorem lex_positions (source : String) :
    (operands (lex source)).map (·.index) =
      (List.range (operands (lex source)).length).map some ∧
    (∀ before t after, lex source = before ++ t :: after → t.kind = .label →
      t.index = some (operands before).length ∧
      (∀ u ∈ (operands after).head?, u.index = t.index) ∧
      (∀ between u rest, after = between ++ u :: rest → operands between = [] →
        u.kind = .label → u.index = t.index) ∧
      (operands after = [] → t.index = some (operands (lex source)).length)) ∧
    ∀ t ∈ lex source, t.kind ∈ [.comment, .endOfLine, .endOfInput] → t.index = none := by
  refine ⟨map_index_operands source, ?_, ?_⟩
  · intro before t after h ht
    refine ⟨index_of_counted h (by simp [ht]), ?_, ?_, index_of_last_label h ht⟩
    · intro u hu
      obtain ⟨others, hothers⟩ := List.head?_eq_some_iff.mp hu
      obtain ⟨between, rest, rfl, hbetween, hoperand, -⟩ := List.filter_eq_cons_iff.mp hothers
      exact index_eq_of_label h ht (List.filter_eq_nil_iff.mpr hbetween) (by simp [hoperand])
    · rintro between u rest rfl hbetween hu
      exact index_eq_of_label h ht hbetween (by simp [hu])
  · intro t ht hkind
    obtain ⟨before, after, h⟩ := List.append_of_mem ht
    apply index_of_uncounted h
    simp only [List.mem_cons, List.not_mem_nil, or_false] at hkind
    rcases hkind with hkind | hkind | hkind <;> simp [hkind, TokenKind.isOperand]

end StackAssembly.Token
