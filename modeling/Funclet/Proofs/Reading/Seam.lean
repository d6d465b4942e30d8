import Funclet.Proofs.Reading.Acceptance
import Funclet.Proofs.Reading.Completeness

/-!
# One text behind another

* `Derives.append` : what can be derived from a text can be derived where a text that starts with `FUNC` follows. At the
  end of the first text no rule looks for anything that a `FUNC` would be;
* `nextFunction_quiet` : an attempt that reports nothing has derived a function, or has found the end of the text.
-/

namespace Funclet.Grammar

variable {ops : Operators} {φ : Phrase} {items rest more : List Item} {pos : Pos} {t : Token}

/-! ## At the seam -/

theorem first_append (items : List Item) (hmore : first more = .keyword .FUNC) :
    first (items ++ more) = first items ∨ first (items ++ more) = .keyword .FUNC := by
  rcases items with _ | ⟨⟨pos, _ | t⟩, items⟩
  · exact .inr hmore
  · exact .inl rfl
  · exact .inl rfl

theorem first_append_ne (hmore : first more = .keyword .FUNC) (ht : t ≠ .keyword .FUNC) (h : first items ≠ t) :
    first (items ++ more) ≠ t := by
  rcases first_append items hmore with heq | heq <;> rw [heq]
  · exact h
  · exact ht.symm

theorem faultOf?_of_first (hmore : first more = .keyword .FUNC) : faultOf? more = none := by
  rcases more with _ | ⟨⟨pos, _ | t⟩, more⟩
  · rfl
  · cases hmore
  · rfl

theorem faultOf?_append (hmore : first more = .keyword .FUNC) (h : faultOf? items = none) :
    faultOf? (items ++ more) = none := by
  rcases items with _ | ⟨⟨pos, _ | t⟩, items⟩
  · exact faultOf?_of_first hmore
  · cases h
  · rfl

theorem Takes.append (hmore : first more = .keyword .FUNC) (h : Takes pos t items rest) :
    Takes pos t (items ++ more) (rest ++ more) := by
  obtain ⟨h⟩ := h
  exact .intro (faultOf?_append hmore h)

/-- What can be derived from a text can be derived where a text that starts with `FUNC` follows. -/
theorem Derives.append (hmore : first more = .keyword .FUNC) (h : Derives ops φ items rest) :
    Derives ops φ (items ++ more) (rest ++ more) := by
  -- Most rules name the tokens that they take. The others say what the next token is not, which may be the `FUNC` now.
  induction h with
  | expression _ _ ihlhs ih => exact .expression ihlhs ih
  | @climbStop least lhs items h =>
    refine .climbStop ?_
    rcases first_append items hmore with heq | heq <;> rw [heq]
    · exact h
    · nofun
  | climbOn hop hp hle _ _ _ ihoperand ihrhs ih => exact .climbOn (hop.append hmore) hp hle ihoperand ihrhs ih
  | unary hop hu _ ih => exact .unary (hop.append hmore) hu ih
  | @operand e items rest hu _ ih =>
    refine .operand ?_ ih
    rcases first_append items hmore with heq | heq <;> rw [heq]
    · exact hu
    · rfl
  | number h => exact .number (h.append hmore)
  | var h hcall => exact .var (h.append hmore) (first_append_ne hmore nofun hcall)
  | call hname hopen _ ihargs => exact .call (hname.append hmore) (hopen.append hmore) ihargs
  | group hopen _ hclose ih => exact .group (hopen.append hmore) ih (hclose.append hmore)
  | negation hminus _ ih => exact .negation (hminus.append hmore) ih
  | letExpr hvar _ _ ihbs ih => exact .letExpr (hvar.append hmore) ihbs ih
  | noArguments hclose => exact .noArguments (hclose.append hmore)
  | arguments hfirst _ ih => exact .arguments (first_append_ne hmore nofun hfirst) ih
  | lastArgument _ hclose iharg => exact .lastArgument iharg (hclose.append hmore)
  | nextArgument _ hcomma _ iharg ih => exact .nextArgument iharg (hcomma.append hmore) ih
  | noInitializer hfirst => exact .noInitializer (first_append_ne hmore nofun hfirst)
  | initializer heq _ ih => exact .initializer (heq.append hmore) ih
  | lastBinding hname _ hfirst ih => exact .lastBinding (hname.append hmore) ih (first_append_ne hmore nofun hfirst)
  | nextBinding hname _ hcomma _ ihinit ih => exact .nextBinding (hname.append hmore) ihinit (hcomma.append hmore) ih
  | text h => exact .text (h.append hmore)
  | value hfirst _ ih => exact .value (fun value => first_append_ne hmore nofun (hfirst value)) ih
  | lastItem _ hfirst ih => exact .lastItem ih (first_append_ne hmore nofun hfirst)
  | nextItem _ hcomma _ ihi ih => exact .nextItem ihi (hcomma.append hmore) ih
  | noDeclarations hfirst => exact .noDeclarations (first_append_ne hmore nofun hfirst)
  | declarations hvar _ _ ihbs ih => exact .declarations (hvar.append hmore) ihbs ih
  | noOtherwise hfirst => exact .noOtherwise (first_append_ne hmore nofun hfirst)
  | otherwise helse _ ih => exact .otherwise (helse.append hmore) ih
  | assign hname hto _ ih => exact .assign (hname.append hmore) (hto.append hmore) ih
  | ret hret _ ih => exact .ret (hret.append hmore) ih
  | print hprint _ ih => exact .print (hprint.append hmore) ih
  | again h => exact .again (h.append hmore)
  | cond hif _ hthen _ _ hfi ihtest ihyes ihno =>
    exact .cond (hif.append hmore) ihtest (hthen.append hmore) ihyes ihno (hfi.append hmore)
  | loop hwhile _ hdo _ hdone ihtest ihbody =>
    exact .loop (hwhile.append hmore) ihtest (hdo.append hmore) ihbody (hdone.append hmore)
  | letStmt hvar _ _ ihbs ihbody => exact .letStmt (hvar.append hmore) ihbs ihbody
  | braces hopen _ _ ihbs ih => exact .braces (hopen.append hmore) ihbs ih
  | blockEnd hclose => exact .blockEnd (hclose.append hmore)
  | blockMore _ _ ihx ih => exact .blockMore ihx ih
  | statedPrecedence h hp => exact .statedPrecedence (h.append hmore) hp
  | defaultPrecedence hfirst => exact .defaultPrecedence fun x => first_append_ne hmore nofun (hfirst x)
  | plainSignature h => exact .plainSignature (h.append hmore)
  | unarySignature hunary hop hsep => exact .unarySignature (hunary.append hmore) (hop.append hmore) hsep
  | binarySignature hbinary hop hsep _ ih => exact .binarySignature (hbinary.append hmore) (hop.append hmore) hsep ih
  | lastParameter hname hclose => exact .lastParameter (hname.append hmore) (hclose.append hmore)
  | nextParameter hname hcomma _ ih => exact .nextParameter (hname.append hmore) (hcomma.append hmore) ih
  | noParameters hclose => exact .noParameters (hclose.append hmore)
  | parameters hfirst _ ih => exact .parameters (first_append_ne hmore nofun hfirst) ih
  | prototype _ hopen _ ihsig ih => exact .prototype ihsig (hopen.append hmore) ih
  | function hfunc _ _ ihproto ihbody => exact .function (hfunc.append hmore) ihproto ihbody

/-! ## Attempts that report nothing -/

theorem reports_ne_nil {s s' : State} (h : Moves s s') (hs : s.reports ≠ []) : s'.reports ≠ [] := by
  obtain ⟨ds, hds, -⟩ := h.reports
  rw [hds]
  exact List.append_ne_nil_of_left_ne_nil hs ds

theorem report_ne_nil (s : State) (d : Diagnostic) : (s.report d).reports ≠ [] :=
  List.append_ne_nil_of_right_ne_nil _ (List.cons_ne_nil d [])

/-- A search ends at once where it finds what it looks for. -/
theorem skipUntil_of_stop {stop : Token → Bool} {s : State} (h : stop s.token = true) : s.skipUntil stop = s := by
  unfold State.skipUntil
  cases s.ahead.length <;> exact if_pos h

/-- What spells no token is skipped before an attempt. -/
theorem toFunction_skip {s : State} (h : s.token = .invalid) : s.skip.toFunction = s.toFunction := by
  have hskip : s.skip.skipUntil (· ≠ .invalid) = s.skipUntil (· ≠ .invalid) := by
    obtain ⟨token, pos, ahead, ending, failed, reports⟩ := s
    dsimp only at h
    subst h
    rcases ahead with _ | ⟨⟨p, _ | t⟩, items⟩ <;> rfl
  unfold State.toFunction
  rw [hskip]

theorem nextFunction_skip {s : State} (h : s.token = .invalid) : s.skip.nextFunction ops = s.nextFunction ops := by
  unfold State.nextFunction
  rw [toFunction_skip h]

/-- The first token of a text is reached without a report. -/
theorem State.skip_ofScan {x : Scan} (h : faultOf? x.items = none) :
    (State.ofScan x).skip = (State.ofScan x).facing x.items := by
  obtain ⟨_ | ⟨⟨p, _ | t⟩, items⟩, ending⟩ := x
  · rfl
  · cases h
  · rfl

/-- What is wrong with the first item of a text is reported. -/
theorem faultOf?_of_quiet {x : Scan} (h : ((State.ofScan x).nextFunction ops).2.reports = []) :
    faultOf? x.items = none := by
  obtain ⟨_ | ⟨⟨p, e | t⟩, items⟩, ending⟩ := x
  · rfl
  · rw [← nextFunction_skip rfl] at h
    obtain ⟨ds, hds, -⟩ := nextFunction_reports ops (State.ofScan ⟨⟨p, .error e⟩ :: items, ending⟩).skip
    rw [hds] at h
    exact absurd (List.append_eq_nil_iff.1 h).1 (report_ne_nil _ _)
  · rfl

theorem toFunction_of_starts {s : State} (h : startsFunction s.token = true) : s.toFunction = s := by
  have htoken : s.token ≠ .invalid := by
    intro htoken
    rw [htoken] at h
    cases h
  unfold State.toFunction
  rw [skipUntil_of_stop (by simpa using htoken)]
  exact if_pos h

/-- An attempt that reports nothing finds the next function right where it is, or the end of the text. -/
theorem startsFunction_of_quiet {s : State} (htoken : s.token ≠ .invalid) (hreports : s.toFunction.reports = []) :
    startsFunction s.token = true := by
  by_contra hstarts
  unfold State.toFunction at hreports
  rw [skipUntil_of_stop (by simpa using htoken)] at hreports
  dsimp only at hreports
  rw [if_neg hstarts] at hreports
  exact reports_ne_nil (Moves.skipFor _ _ _) (report_ne_nil s _) hreports

/-- An attempt that reports nothing has derived a function, or has found the end of the text. -/
theorem nextFunction_quiet (hclean : Clean items) (s : State)
    (hreports : ((s.facing items).nextFunction ops).2.reports = []) :
    items = [] ∧ (s.facing items).nextFunction ops = (.ended, s.facing []) ∨
      ∃ f rest, Derives ops (.function f) items rest ∧
        (s.facing items).nextFunction ops = (.function f, { s with failed := false }.facing rest) := by
  have hfirst : (s.facing items).token ≠ .invalid := by
    rw [State.facing_token]
    exact hclean.first_ne
  obtain ⟨failed, hmoves⟩ := nextFunction_moves ops (s.facing items)
  have hquiet : (s.facing items).toFunction.reports = [] := by
    by_contra hne
    exact reports_ne_nil hmoves hne hreports
  have hstarts := startsFunction_of_quiet hfirst hquiet
  have hto := toFunction_of_starts hstarts
  rw [State.facing_token] at hstarts
  rcases items with _ | ⟨⟨pos, _ | t⟩, ahead⟩
  · refine .inl ⟨rfl, ?_⟩
    unfold State.nextFunction
    rw [hto]
    rfl
  · cases hclean.faultless
  · obtain rfl : t = .keyword .FUNC := by
      have hsolid := hclean.solid _ (List.mem_cons_self ..) t rfl
      change startsFunction t = true at hstarts
      unfold startsFunction at hstarts
      split at hstarts
      · rfl
      · exact hsolid.elim
      · cases hstarts
    right
    have hsound := sound_function ops hclean { s with failed := false }
    have htoken : (s.facing (⟨pos, .ok (.keyword .FUNC)⟩ :: ahead)).token ≠ .eof := nofun
    have hbegin : { s.facing (⟨pos, .ok (.keyword .FUNC)⟩ :: ahead) with failed := false } =
      { s with failed := false }.facing (⟨pos, .ok (.keyword .FUNC)⟩ :: ahead) := rfl
    unfold State.nextFunction at hreports ⊢
    rw [hto] at hreports ⊢
    dsimp only at hreports ⊢
    rw [if_neg htoken, hbegin] at hreports ⊢
    cases hf : function ops ({ s with failed := false }.facing (⟨pos, .ok (.keyword .FUNC)⟩ :: ahead)) with
    | error d u =>
      rw [hf] at hreports
      exact absurd hreports (reports_ne_nil (Moves.skipFor _ _ _) (report_ne_nil u d))
    | ok f u =>
      rw [hf] at hreports hsound
      -- An error that was passed over in a block would have been reported.
      rcases hsound with ⟨rest, rfl, hrest⟩ | hspoiled
      · refine ⟨f, rest, hrest, ?_⟩
        dsimp only
        rw [State.facing_failed]
        rfl
      · exact absurd hreports hspoiled.reports

end Funclet.Grammar
