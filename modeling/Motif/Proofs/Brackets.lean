import Motif.Proofs.Items
import Motif.Proofs.Lexing

/-!
# Brackets

If no declared symbol holds a bracket, a text that is read has balanced brackets, and a balanced
text is never refused because of its brackets, however deep they are nested. A pattern may be put
between round brackets as a whole: its items then become those of a group.
-/

namespace Motif

/-- No declared symbol holds a bracket. -/
def Vocabulary.Unbracketed (vocabulary : Vocabulary) : Prop :=
  ∀ symbol ∈ vocabulary.symbols, ∀ c ∈ symbol, IsUnbracketed c

instance (vocabulary : Vocabulary) : Decidable vocabulary.Unbracketed :=
  @List.decidableBAll _ _ (List.decidableBAll IsUnbracketed) vocabulary.symbols

/-- The outcome is no complaint about a bracket that is left open or closes nothing. -/
def NoBracketFault {β : Type} (outcome : Except PatternFault β) : Prop :=
  ∀ bracket, outcome ≠ .error (.unclosedGroup bracket) ∧
    outcome ≠ .error (.unexpectedClose bracket)

theorem noBracketFault_ok {β : Type} (value : β) : NoBracketFault (.ok value) :=
  fun _ => ⟨by simp, by simp⟩

theorem noBracketFault_error_iff {β : Type} {fault : PatternFault} :
    NoBracketFault (.error fault : Except PatternFault β) ↔
      ∀ bracket, fault ≠ .unclosedGroup bracket ∧ fault ≠ .unexpectedClose bracket := by
  simp [NoBracketFault]

theorem NoBracketFault.bind {β γ : Type} {first : Except PatternFault β}
    {second : β → Except PatternFault γ} (hfirst : NoBracketFault first)
    (hsecond : ∀ value, first = .ok value → NoBracketFault (second value)) :
    NoBracketFault (first >>= second) := by
  cases first with
  | error fault =>
      rw [noBracketFault_error_iff] at hfirst
      exact noBracketFault_error_iff.2 hfirst
  | ok value => exact hsecond value rfl

/-! ## Balanced texts are read without such a complaint -/

namespace Lexeme

variable {vocabulary : Vocabulary} {lexeme : Lexeme} {text after : List Char}

theorem Leads.balanced (hvocabulary : vocabulary.Unbracketed)
    (h : lexeme.Leads vocabulary.symbols after) : Balanced lexeme.source := by
  rcases h.declared_or_bare with ⟨symbol, hsymbol, rfl⟩ | hbare
  · exact balanced_of_unbracketed (hvocabulary symbol hsymbol)
  · have hsign : ∀ {c : Char}, IsUnbracketed c → Balanced [c] := fun hc => .other hc .nil
    cases lexeme with
    | symbol text =>
        obtain ⟨c, rfl, hc⟩ := hbare
        exact hsign (isUnbracketed_of_sign_eq_none hc)
    | wildcard | boundary | negation => exact hsign (by decide)
    | quantifier kind =>
        cases kind with
        | once => exact .nil
        | optional | zeroOrMore | oneOrMore => exact hsign (by decide)
    | group bracket body => exact .group bracket hbare .nil

/-- What is left of a text after its first lexeme is balanced exactly if the text is. -/
theorem balanced_iff_of_readFirst (hvocabulary : vocabulary.Unbracketed)
    (h : readFirst vocabulary.symbols text = .ok (some (lexeme, after))) :
    Balanced text ↔ Balanced after := by
  obtain ⟨gap, c, rest, hgap, rfl, hsource, -, hleads⟩ := readFirst_eq_some_iff.1 h
  rw [hsource, (balanced_of_blank hgap).append_iff, (hleads.balanced hvocabulary).append_iff]

theorem Reads.balanced (hvocabulary : vocabulary.Unbracketed) {lexemes : List Lexeme}
    (h : Reads vocabulary.symbols text lexemes) : Balanced text := by
  induction h with
  | done hfirst => exact balanced_of_blank (readFirst_eq_none_iff.1 hfirst)
  | next hfirst _ ih => exact (balanced_iff_of_readFirst hvocabulary hfirst).2 ih

theorem exists_readFirst_of_balanced (vocabulary : Vocabulary) (h : Balanced text) :
    ∃ found, readFirst vocabulary.symbols text = .ok found := by
  obtain ⟨gap, htext, hgap⟩ := Text.exists_blank_append_skipBlank text
  unfold readFirst
  split
  · exact ⟨none, rfl⟩
  · rename_i c rest hskip
    split
    · exact ⟨_, rfl⟩
    · rw [hskip] at htext
      rw [htext, (balanced_of_blank hgap).append_iff] at h
      have hread : ∃ found, ofChar c rest = .ok found := by
        cases hsign : Sign.ofChar? c with
        | none => simp [ofChar, hsign]
        | some sign =>
            cases sign with
            | opening bracket =>
                rw [Sign.ofChar?_eq_opening_iff.1 hsign] at h
                obtain ⟨body, after, hrest, hbody, -⟩ := h.exists_group
                have hscan : scanBody bracket [] rest = .ok (body, after) :=
                  scanBody_eq_ok_iff_balanced.2 ⟨hrest, hbody⟩
                simp [ofChar, hsign, hscan]
            | closing bracket =>
                rw [Sign.ofChar?_eq_closing_iff.1 hsign] at h
                exact absurd h not_balanced_closing
            | wildcard | boundary | negation | quantifier => simp [ofChar, hsign]
      obtain ⟨found, hfound⟩ := hread
      exact ⟨some found, by simp [hfound]⟩

end Lexeme

namespace Level

variable (level : Level)

theorem noBracketFault_negated (item : Tree) : NoBracketFault (negated item) := by
  unfold negated
  split
  · exact noBracketFault_error_iff.2 (by simp)
  · split
    · exact noBracketFault_error_iff.2 (by simp)
    · exact noBracketFault_ok _

theorem noBracketFault_add (item : Tree) : NoBracketFault (level.add item) := by
  have hnegated := noBracketFault_negated item
  unfold add
  split
  · split
    · exact noBracketFault_ok _
    · rename_i fault hfault
      rw [hfault, noBracketFault_error_iff] at hnegated
      exact noBracketFault_error_iff.2 hnegated
  · exact noBracketFault_ok _

theorem noBracketFault_readNegation : NoBracketFault level.readNegation := by
  unfold readNegation
  split
  · exact noBracketFault_error_iff.2 (by simp)
  · exact noBracketFault_ok _

theorem noBracketFault_readQuantifier (quantifier : Quantifier) :
    NoBracketFault (level.readQuantifier quantifier) := by
  unfold readQuantifier
  split
  · exact noBracketFault_error_iff.2 (by simp)
  · split
    · exact noBracketFault_error_iff.2 (by simp)
    · split
      · exact noBracketFault_error_iff.2 (by simp)
      · split
        · exact noBracketFault_error_iff.2 (by simp)
        · exact noBracketFault_ok _

theorem noBracketFault_close : NoBracketFault level.close := by
  unfold close
  split
  · exact noBracketFault_error_iff.2 (by simp)
  · exact noBracketFault_ok _

end Level

theorem pairFault_ne_bracket (left right : Char) (bracket : Bracket) :
    pairFault left right ≠ some (.unclosedGroup bracket) ∧
      pairFault left right ≠ some (.unexpectedClose bracket) := by
  unfold pairFault
  split <;> simp

theorem adjacencyFault_ne_bracket (text : List Char) (bracket : Bracket) :
    adjacencyFault text ≠ some (.unclosedGroup bracket) ∧
      adjacencyFault text ≠ some (.unexpectedClose bracket) := by
  induction text with
  | nil => simp [adjacencyFault]
  | cons left rest ih =>
      cases rest with
      | nil => simp [adjacencyFault]
      | cons right rest =>
          have hpair := pairFault_ne_bracket left right bracket
          rw [adjacencyFault]
          split
          · rename_i fault hfault
            rwa [hfault] at hpair
          · exact ih

namespace Tree

variable {vocabulary : Vocabulary}

theorem noBracketFault_parseBranches {texts : List (List Char)}
    (h : ∀ text ∈ texts, NoBracketFault (parseLevel vocabulary .start text)) :
    NoBracketFault (parseBranches vocabulary texts) := by
  induction texts with
  | nil =>
      rw [parseBranches]
      exact noBracketFault_ok _
  | cons text rest ih =>
      rw [List.forall_mem_cons] at h
      rw [parseBranches]
      refine h.1.bind fun items _ => (ih h.2).bind fun others _ => ?_
      exact noBracketFault_ok _

theorem noBracketFault_parseGroup {bracket : Bracket} {body : List Char} (hbody : Balanced body)
    (h : ∀ text, text.length ≤ body.length → Balanced text →
      NoBracketFault (parseLevel vocabulary .start text)) :
    NoBracketFault (parseGroup vocabulary bracket body) := by
  cases bracket with
  | round =>
      rw [parseGroup]
      refine (h body (Nat.le_refl _) hbody).bind fun children _ => ?_
      split
      · exact noBracketFault_error_iff.2 (by simp)
      · exact noBracketFault_ok _
  | curly =>
      rw [parseGroup]
      split
      · exact noBracketFault_error_iff.2 (by simp)
      · refine NoBracketFault.bind ?_ fun children _ => noBracketFault_ok _
        refine noBracketFault_parseBranches fun text htext => ?_
        have hle := Nat.le_trans (length_le_totalLength htext) (totalLength_branches_le body)
        exact h text hle (hbody.of_mem_branches htext)

theorem noBracketFault_absorb {level : Level} {lexeme : Lexeme}
    (hgroup : ∀ bracket body, lexeme = .group bracket body →
      NoBracketFault (parseGroup vocabulary bracket body)) :
    NoBracketFault (absorb vocabulary level lexeme) := by
  cases lexeme with
  | symbol text | wildcard | boundary =>
      rw [absorb]
      exact level.noBracketFault_add _
  | negation =>
      rw [absorb]
      exact level.noBracketFault_readNegation
  | quantifier quantifier =>
      rw [absorb]
      exact level.noBracketFault_readQuantifier quantifier
  | group bracket body =>
      rw [absorb]
      exact (hgroup bracket body rfl).bind fun item _ => level.noBracketFault_add item

/-- On no level of a balanced text is a bracket left open or closes nothing. -/
theorem noBracketFault_parseLevel (hvocabulary : vocabulary.Unbracketed) {text : List Char}
    (h : Balanced text) :
    ∀ level : Level, NoBracketFault (parseLevel vocabulary level text) := by
  -- The text of a group is a level of its own, so the induction is on the length of the text.
  induction hlength : text.length using Nat.strong_induction_on generalizing text with
  | _ length ih =>
      intro level
      obtain ⟨found, hfirst⟩ := Lexeme.exists_readFirst_of_balanced vocabulary h
      cases found with
      | none =>
          rw [parseLevel_of_none hfirst]
          exact level.noBracketFault_close
      | some found =>
          obtain ⟨lexeme, rest⟩ := found
          have hshorter := Lexeme.length_lt_of_readFirst vocabulary.ne_nil_of_mem hfirst
          have hrest := (Lexeme.balanced_iff_of_readFirst hvocabulary hfirst).1 h
          rw [parseLevel_of_some hfirst]
          refine NoBracketFault.bind (noBracketFault_absorb ?_) fun next _ =>
            ih rest.length (by omega) hrest rfl next
          intro bracket body heq
          subst heq
          refine noBracketFault_parseGroup (Lexeme.readable_of_readFirst hfirst).balanced ?_
          intro inner hinner hbalanced
          have hbody : body.length < length := by
            simp only [Lexeme.unread] at hshorter
            omega
          exact ih inner.length (by omega) hbalanced rfl .start

/--
If no declared symbol holds a bracket, a text whose brackets are not balanced is refused, and one
whose brackets are balanced is never refused because a bracket is left open or closes nothing, in
whatever group or branch.
-/
theorem parse_bracket_faults {vocabulary : Vocabulary} (hvocabulary : vocabulary.Unbracketed)
    (direction : Direction) (text : List Char) :
    (¬ Balanced text → ∃ fault, parse vocabulary direction text = .error fault) ∧
      (Balanced text → ∀ bracket,
        parse vocabulary direction text ≠ .error (.unclosedGroup bracket) ∧
          parse vocabulary direction text ≠ .error (.unexpectedClose bracket)) := by
  constructor
  · intro h
    cases hparse : parse vocabulary direction text with
    | error fault => exact ⟨fault, rfl⟩
    | ok tree =>
        obtain ⟨items, hitems, -⟩ := exists_items_of_parse hparse
        obtain ⟨lexemes, hreads, -⟩ := parseLevel_eq_ok_iff_itemsOf.1 hitems
        exact absurd (hreads.balanced hvocabulary) h
  · intro h
    have hadjacent := adjacencyFault_ne_bracket text
    change NoBracketFault (parse vocabulary direction text)
    unfold parse
    split
    · rename_i fault hfault
      simp only [hfault, ne_eq, Option.some.injEq] at hadjacent
      exact noBracketFault_error_iff.2 hadjacent
    · refine (noBracketFault_parseLevel hvocabulary h .start).bind fun items _ => ?_
      unfold settle
      dsimp only
      split
      · exact noBracketFault_error_iff.2 (by simp)
      · exact noBracketFault_ok _

/-- A bracket is closed by the other kind in one text, and a negation sign is left in another. -/
theorem parse_bracket_faults_of_nested_groups :
    let vocabulary := Vocabulary.ofList [['!', ' '], ['a', 'b']]
    vocabulary.Unbracketed ∧
      (¬ Balanced ['(', 'a', '{', 'b', ')', '}'] ∧
        ∃ fault, parse vocabulary .forward ['(', 'a', '{', 'b', ')', '}'] = .error fault) ∧
      Balanced ['{', 'a', ' ', '(', 'b', '!', ')', ' ', 'a', 'b', '}'] ∧
        ∀ bracket,
          parse vocabulary .backward ['{', 'a', ' ', '(', 'b', '!', ')', ' ', 'a', 'b', '}'] ≠
              .error (.unclosedGroup bracket) ∧
            parse vocabulary .backward ['{', 'a', ' ', '(', 'b', '!', ')', ' ', 'a', 'b', '}'] ≠
              .error (.unexpectedClose bracket) := by
  have hplain : (Vocabulary.ofList [['!', ' '], ['a', 'b']]).Unbracketed := by decide
  have hunbalanced : ¬ Balanced ['(', 'a', '{', 'b', ')', '}'] := by decide
  have hbalanced : Balanced ['{', 'a', ' ', '(', 'b', '!', ')', ' ', 'a', 'b', '}'] := by decide
  exact ⟨hplain, ⟨hunbalanced, (parse_bracket_faults hplain .forward _).1 hunbalanced⟩,
    hbalanced, (parse_bracket_faults hplain .backward _).2 hbalanced⟩

end Tree

/-! ## A pattern between round brackets -/

theorem adjacencyFault_append_closing (bracket : Bracket) (text : List Char) :
    adjacencyFault (text ++ [bracket.closeChar]) = adjacencyFault text := by
  have hpair : ∀ left, pairFault left bracket.closeChar = none := by
    intro left
    rw [pairFault, Sign.ofChar?_eq_closing_iff.2 rfl]
    cases Sign.ofChar? left with
    | none => rfl
    | some sign => cases sign <;> rfl
  induction text with
  | nil => rfl
  | cons left rest ih =>
      cases rest with
      | nil => simp [adjacencyFault, hpair]
      | cons right rest =>
          rw [List.cons_append] at ih
          rw [List.cons_append, List.cons_append, adjacencyFault, adjacencyFault, ih]

theorem adjacencyFault_bracket (bracket : Bracket) (text : List Char) :
    adjacencyFault (Tree.bracket bracket text) = adjacencyFault text := by
  rw [Tree.bracket, adjacencyFault_cons, adjacencyFault_append_closing]
  intro right _
  rw [pairFault, Sign.ofChar?_eq_opening_iff.2 rfl]

/-- Something of the level has been read: an item, or a negation sign that waits for one. -/
def Level.Begun (level : Level) : Prop :=
  level.finished ≠ [] ∨ level.negating = true

namespace Tree

variable {vocabulary : Vocabulary}

theorem begun_of_absorb {level next : Level} {lexeme : Lexeme}
    (h : absorb vocabulary level lexeme = .ok next) : next.Begun := by
  have hadd : ∀ {item : Tree}, level.add item = .ok next → next.Begun := by
    intro item hadd
    rcases Level.add_eq_ok_iff.1 hadd with ⟨-, rfl⟩ | ⟨-, -, rfl⟩ <;> exact Or.inl (by simp)
  cases lexeme with
  | symbol text | wildcard | boundary =>
      rw [absorb] at h
      exact hadd h
  | negation =>
      rw [absorb, Level.readNegation] at h
      split at h
      · cases h
      · cases h
        exact Or.inr rfl
  | quantifier quantifier =>
      rw [absorb] at h
      obtain ⟨item, earlier, -, -, -, rfl⟩ := Level.readQuantifier_eq_ok_iff.1 h
      exact Or.inl (by simp)
  | group bracket body =>
      rw [absorb] at h
      obtain ⟨item, -, hitem⟩ := bind_eq_ok_iff.1 h
      exact hadd hitem

theorem ne_nil_of_parseLevel {text : List Char} {items : List Tree}
    (hblank : text.all Text.isBlank = false)
    (h : parseLevel vocabulary .start text = .ok items) : items ≠ [] := by
  have hbegun : ∀ {lexemes : List Lexeme} {level last : Level}, level.Begun →
      lexemes.foldlM (absorb vocabulary) level = .ok last → last.Begun := by
    intro lexemes
    induction lexemes with
    | nil =>
        intro level last hlevel hfold
        cases hfold
        exact hlevel
    | cons lexeme rest ih =>
        intro level last _ hfold
        rw [List.foldlM_cons] at hfold
        obtain ⟨next, hnext, hrest⟩ := bind_eq_ok_iff.1 hfold
        exact ih (begun_of_absorb hnext) hrest
  obtain ⟨lexemes, hreads, hitemsOf⟩ := parseLevel_eq_ok_iff_itemsOf.1 h
  obtain ⟨last, hfold, hclose⟩ := bind_eq_ok_iff.1 hitemsOf
  cases hreads with
  | done hfirst =>
      rw [Lexeme.readFirst_eq_none_iff.1 hfirst] at hblank
      cases hblank
  | next _ _ =>
      rw [List.foldlM_cons] at hfold
      obtain ⟨next, hnext, hrest⟩ := bind_eq_ok_iff.1 hfold
      have hlast := hbegun (begun_of_absorb hnext) hrest
      obtain ⟨hwaiting, rfl⟩ := Level.close_eq_ok_iff.1 hclose
      exact List.reverse_ne_nil_iff.2 (hlast.resolve_right (by simp [hwaiting]))

/-- If no declared symbol stands at its beginning, a balanced text in brackets is one group. -/
theorem readFirst_bracket {kind : Bracket} {text : List Char} (h : Balanced text)
    (hclear : ∀ symbol ∈ vocabulary.symbols, ¬ symbol <+: bracket kind text) :
    Lexeme.readFirst vocabulary.symbols (bracket kind text) =
      .ok (some (.group kind text, [])) := by
  have hblank : Text.isBlank kind.openChar = false := by cases kind <;> decide
  have hnone : Lexeme.leadingSymbol? vocabulary.symbols (bracket kind text) = none := by
    rw [Vocabulary.leadingSymbol?_eq_longest?, Vocabulary.longest?_eq_none_iff]
    exact hclear
  refine Lexeme.readFirst_eq_some_iff.2 ⟨[], kind.openChar, _, rfl, rfl, ?_, hblank, ?_⟩
  · rw [List.append_nil, Lexeme.source, bracket]
  · rw [Lexeme.Leads, List.append_nil, Lexeme.source, hnone]
    exact h

theorem length_resolveSequence (first last : Bool) (trees : List Tree) :
    (resolveSequence first last trees).length = trees.length := by
  induction trees generalizing first with
  | nil => simp [resolveSequence]
  | cons tree rest ih => rw [resolveSequence, List.length_cons, List.length_cons, ih]

/-- Such a text is read as a group of the items that are read from what stands inside. -/
theorem parseLevel_bracket {text : List Char} {items : List Tree} (h : Balanced text)
    (hclear : ∀ symbol ∈ vocabulary.symbols, ¬ symbol <+: bracket .round text)
    (hitems : parseLevel vocabulary .start text = .ok items) (hne : items ≠ []) :
    parseLevel vocabulary .start (bracket .round text) = .ok [.sequence items .plain] := by
  have hgroup : parseGroup vocabulary .round text = .ok (.sequence items .plain) := by
    rw [parseGroup, hitems]
    cases items with
    | nil => exact absurd rfl hne
    | cons item rest => rfl
  rw [parseLevel_of_some (readFirst_bracket h hclear), absorb, hgroup]
  exact parseLevel_of_none (Lexeme.readFirst_eq_none_iff.2 rfl)

/-- A group is settled as what it holds, which is wrapped if it is a single item. -/
theorem settle_group {items : List Tree} {tree : Tree} (hne : items ≠ [])
    (h : settle .forward items = .ok tree) :
    settle .forward [.sequence items .plain] =
      .ok (if 1 < items.length then tree else .sequence [tree] .plain) := by
  rw [settle_eq_ok_iff] at h ⊢
  obtain ⟨hedges, rfl⟩ := h
  rcases items with _ | ⟨item, _ | ⟨next, rest⟩⟩
  · exact absurd rfl hne
  · exact ⟨⟨hedges, trivial⟩, rfl⟩
  · refine ⟨hedges, ?_⟩
    rw [if_pos (by simp)]
    rfl

/--
A pattern that is more than blanks may be put between round brackets, if its own brackets are
balanced and no declared symbol takes up the opening one: several items are read as the same tree
with and without the brackets, and a single item is read as a group of its own.
-/
theorem parse_bracket {vocabulary : Vocabulary} {text : List Char} {tree : Tree}
    (h : parse vocabulary .forward text = .ok tree) (hblank : text.all Text.isBlank = false)
    (hclear : ∀ symbol ∈ vocabulary.symbols, ¬ symbol <+: bracket .round text)
    (hbalanced : Balanced text) :
    ∃ items, parseLevel vocabulary .start text = .ok items ∧ items ≠ [] ∧
      (1 < items.length → ∃ children, tree = .sequence children .plain ∧
        children.length = items.length) ∧
      parse vocabulary .forward (bracket .round text) =
        .ok (if 1 < items.length then tree else .sequence [tree] .plain) := by
  obtain ⟨items, hitems, hsettle⟩ := exists_items_of_parse h
  have hne := ne_nil_of_parseLevel hblank hitems
  refine ⟨items, hitems, hne, ?_, ?_⟩
  · intro hlong
    obtain ⟨-, rfl⟩ := settle_eq_ok_iff.1 hsettle
    rcases items with _ | ⟨item, _ | ⟨next, rest⟩⟩
    · exact absurd rfl hne
    · exact absurd hlong (by simp)
    · exact ⟨_, rfl, length_resolveSequence _ _ _⟩
  · have hadjacent : adjacencyFault text = none := by
      unfold parse at h
      split at h
      · cases h
      · assumption
    rw [parse, adjacencyFault_bracket, hadjacent]
    dsimp only
    rw [parseLevel_bracket hbalanced hclear hitems hne]
    exact settle_group hne hsettle

/-- Symbols that hold brackets do no harm as long as the brackets of the text are balanced. -/
theorem parse_bracket_of_paired_symbols :
    let vocabulary := Vocabulary.ofList [['a', '('], ['c', 'h'], [')']]
    let text := ['a', '(', 'c', 'h', ' ', ')', 'b', '?']
    ∃ items, parseLevel vocabulary .start text = .ok items ∧ items ≠ [] ∧
      (1 < items.length → ∃ children,
        Tree.sequence [.leaf (.literal ['a', '(']) .plain, .leaf (.literal ['c', 'h']) .plain,
          .leaf (.literal [')']) .plain, .leaf (.literal ['b']) ⟨false, .optional⟩] .plain =
            .sequence children .plain ∧ children.length = items.length) ∧
      parse vocabulary .forward (bracket .round text) =
        .ok (if 1 < items.length then
          Tree.sequence [.leaf (.literal ['a', '(']) .plain, .leaf (.literal ['c', 'h']) .plain,
            .leaf (.literal [')']) .plain, .leaf (.literal ['b']) ⟨false, .optional⟩] .plain
        else
          .sequence [Tree.sequence [.leaf (.literal ['a', '(']) .plain,
            .leaf (.literal ['c', 'h']) .plain, .leaf (.literal [')']) .plain,
            .leaf (.literal ['b']) ⟨false, .optional⟩] .plain] .plain) := by
  have hvocabulary : Vocabulary.ofList [['a', '('], ['c', 'h'], [')']] =
      ⟨[['a', '('], ['c', 'h'], [')']], by decide, by decide, by decide⟩ := rfl
  have hparse : parse (Vocabulary.ofList [['a', '('], ['c', 'h'], [')']]) .forward
      ['a', '(', 'c', 'h', ' ', ')', 'b', '?'] =
        .ok (.sequence [.leaf (.literal ['a', '(']) .plain, .leaf (.literal ['c', 'h']) .plain,
          .leaf (.literal [')']) .plain, .leaf (.literal ['b']) ⟨false, .optional⟩] .plain) := by
    rw [hvocabulary]
    cbv
  exact parse_bracket hparse (by decide) (by decide) (by decide)

/--
A declared symbol that begins with the opening bracket is read in its place, and one that holds a
closing bracket does not keep it from closing the group.
-/
theorem parse_bracket_refused :
    (parse (Vocabulary.ofList [['(']]) .forward ['a'] = .ok (.leaf (.literal ['a']) .plain) ∧
        parse (Vocabulary.ofList [['(']]) .forward (Tree.bracket .round ['a']) =
          .error (.unexpectedClose .round)) ∧
      parse (Vocabulary.ofList [['a', ')']]) .forward ['a', ')'] =
          .ok (.leaf (.literal ['a', ')']) .plain) ∧
        parse (Vocabulary.ofList [['a', ')']]) .forward (Tree.bracket .round ['a', ')']) =
          .error (.unexpectedClose .round) := by
  refine ⟨⟨?_, ?_⟩, ?_, ?_⟩ <;> cbv

end Tree

end Motif
