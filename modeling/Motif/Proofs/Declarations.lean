import Motif.Proofs.Failure
import Motif.Proofs.Grammar.Piece
import Motif.Proofs.Mirror

/-!
# The order of declarations

Neither the order in which symbols and macros are declared matters, nor that a symbol is declared
again or is the key of a macro already. Of the symbols that stand at one place the longest is taken,
and there is only one of a length; the number of a macro depends on the order of the keys, but what
its key stands for does not.
-/

namespace Motif

/-! ## Reading with the same symbols -/

namespace Tree

variable {vocabulary other : Vocabulary}

/-- The lexeme that is read depends on which symbols are declared and not on their order. -/
theorem readFirst_congr
    (h : ∀ symbol, symbol ∈ vocabulary.symbols ↔ symbol ∈ other.symbols) (text : List Char) :
    Lexeme.readFirst vocabulary.symbols text = Lexeme.readFirst other.symbols text := by
  have hleading : ∀ text, Lexeme.leadingSymbol? vocabulary.symbols text =
      Lexeme.leadingSymbol? other.symbols text := by
    intro text
    rw [Vocabulary.leadingSymbol?_eq_longest?, Vocabulary.leadingSymbol?_eq_longest?]
    apply Option.ext
    intro symbol
    simp only [Vocabulary.longest?_eq_some_iff, h]
  unfold Lexeme.readFirst
  simp only [hleading]

theorem parseBranches_congr {texts : List (List Char)}
    (h : ∀ text ∈ texts,
      parseLevel vocabulary .start text = parseLevel other .start text) :
    parseBranches vocabulary texts = parseBranches other texts := by
  induction texts with
  | nil => rw [parseBranches, parseBranches]
  | cons text rest ih =>
      rw [List.forall_mem_cons] at h
      rw [parseBranches, parseBranches, h.1, ih h.2]

theorem parseGroup_congr {bracket : Bracket} {body : List Char}
    (h : ∀ text, text.length ≤ body.length →
      parseLevel vocabulary .start text = parseLevel other .start text) :
    parseGroup vocabulary bracket body = parseGroup other bracket body := by
  cases bracket with
  | round => rw [parseGroup, parseGroup, h body (Nat.le_refl _)]
  | curly =>
      have hbranches : parseBranches vocabulary (branches body) =
          parseBranches other (branches body) := by
        apply parseBranches_congr
        intro text htext
        exact h text (Nat.le_trans (length_le_totalLength htext) (totalLength_branches_le body))
      rw [parseGroup, parseGroup, hbranches]

theorem absorb_congr {level : Level} {lexeme : Lexeme}
    (h : ∀ bracket body, lexeme = .group bracket body →
      parseGroup vocabulary bracket body = parseGroup other bracket body) :
    absorb vocabulary level lexeme = absorb other level lexeme := by
  cases lexeme with
  | group bracket body => rw [absorb, absorb, h bracket body rfl]
  | symbol | wildcard | boundary | negation | quantifier => rw [absorb, absorb]

theorem parseLevel_congr
    (h : ∀ symbol, symbol ∈ vocabulary.symbols ↔ symbol ∈ other.symbols) (text : List Char)
    (level : Level) : parseLevel vocabulary level text = parseLevel other level text := by
  -- A group is read from a shorter text, so the induction is on the length of the text.
  induction hlength : text.length using Nat.strong_induction_on generalizing text level with
  | _ length ih =>
      have hsame := readFirst_congr h text
      cases hfirst : Lexeme.readFirst vocabulary.symbols text with
      | error fault =>
          rw [parseLevel_of_error hfirst, parseLevel_of_error (hsame ▸ hfirst)]
      | ok found =>
          cases found with
          | none => rw [parseLevel_of_none hfirst, parseLevel_of_none (hsame ▸ hfirst)]
          | some found =>
              obtain ⟨lexeme, rest⟩ := found
              have hshorter := Lexeme.length_lt_of_readFirst vocabulary.ne_nil_of_mem hfirst
              rw [parseLevel_of_some hfirst, parseLevel_of_some (hsame ▸ hfirst)]
              have habsorb : absorb vocabulary level lexeme = absorb other level lexeme := by
                apply absorb_congr
                intro bracket body heq
                subst heq
                apply parseGroup_congr
                intro inner hinner
                have hbody : inner.length < length := by
                  simp only [Lexeme.unread] at hshorter
                  omega
                exact ih inner.length hbody inner .start rfl
              have hrest : ∀ next, parseLevel vocabulary next rest =
                  parseLevel other next rest :=
                fun next => ih rest.length (by omega) rest next rfl
              simp only [habsorb, hrest]

theorem parse_congr
    (h : ∀ symbol, symbol ∈ vocabulary.symbols ↔ symbol ∈ other.symbols)
    (direction : Direction) (text : List Char) :
    parse vocabulary direction text = parse other direction text := by
  unfold parse
  rw [parseLevel_congr h]

end Tree

/-! ## Macros under their keys -/

variable {α : Type}

namespace MacroTable

theorem lookup_cons_eq (key : List Char) (entry : List Char × List (List α))
    (entries : List (List Char × List (List α))) :
    (entry :: entries).lookup key = if entry.1 = key then some entry.2 else entries.lookup key := by
  rw [List.lookup_cons]
  cases hkey : key == entry.1 with
  | true => rw [if_pos (beq_iff_eq.1 hkey).symm]
  | false => rw [if_neg (Ne.symm (beq_eq_false_iff_ne.1 hkey))]

theorem get?_eq_lookup (table : MacroTable α) (key : List Char) :
    table.get? key = table.entries.lookup key := by
  unfold get? id? keys expansions
  induction table.entries with
  | nil => rfl
  | cons entry rest ih =>
      rw [List.map_cons, List.idxOf?_cons, lookup_cons_eq]
      by_cases hkey : entry.1 = key
      · simp [hkey]
      · simp [hkey, ← ih, Function.comp_def]

theorem lookup_replaceOrAppend (key other : List Char) (expansions : List (List α))
    (entries : List (List Char × List (List α))) :
    (replaceOrAppend key expansions entries).lookup other =
      if key = other then some expansions else entries.lookup other := by
  induction entries with
  | nil => rw [replaceOrAppend, lookup_cons_eq]
  | cons entry rest ih =>
      rw [replaceOrAppend]
      by_cases hkey : entry.1 = key
      · rw [if_pos hkey, lookup_cons_eq, lookup_cons_eq, hkey]
        by_cases hother : key = other <;> simp [hother]
      · rw [if_neg hkey, lookup_cons_eq, lookup_cons_eq, ih]
        by_cases hother : key = other
        · have hne : ¬ entry.1 = other := fun heq => hkey (heq.trans hother.symm)
          rw [if_neg hne, if_pos hother, if_pos hother]
        · rw [if_neg hother, if_neg hother]

theorem get?_insert (table : MacroTable α) (key other : List Char)
    (expansions : List (List α)) :
    (table.insert key expansions).get? other =
      if key = other then some expansions else table.get? other := by
  rw [get?_eq_lookup, get?_eq_lookup]
  exact lookup_replaceOrAppend key other expansions table.entries

theorem get?_reverse (table : MacroTable α) (key : List Char) :
    table.reverse.get? key = (table.get? key).map (List.map List.reverse) := by
  unfold get?
  rw [id?_reverse, Option.map_map]
  exact congrArg (Option.map · (table.id? key)) (funext fun id => expansions_reverse table id)

variable {table other : MacroTable α}

theorem get?_orient_congr (h : ∀ key, table.get? key = other.get? key)
    (direction : Direction) (key : List Char) :
    (table.orient direction).get? key = (other.orient direction).get? key := by
  cases direction with
  | forward => exact h key
  | backward =>
      show table.reverse.get? key = other.reverse.get? key
      rw [get?_reverse, get?_reverse, h key]

theorem isUnresolved_congr (h : ∀ key, table.get? key = other.get? key) :
    table.isUnresolved = other.isUnresolved := by
  funext key
  rw [isUnresolved, isUnresolved, h key]

end MacroTable

/-! ## Matching with the same macros -/

section Matching

variable [DecidableEq α] [Token α] {table other : MacroTable α} {direction : Direction}
  {input : Array α}

/-- What a literal matches depends on its readings and not on the number of its macro. -/
theorem literalMatches_congr (h : ∀ key, table.get? key = other.get? key)
    (text : List Char) :
    LiteralMatches table direction input text = LiteralMatches other direction input text := by
  rw [literalMatches_eq_firstSeen, literalMatches_eq_firstSeen, MacroTable.readings,
    MacroTable.readings, h text]

theorem excludes_congr (h : ∀ key, table.get? key = other.get? key)
    (choices : Option (List (List Char))) :
    Excludes table direction input choices = Excludes other direction input choices := by
  funext index stop
  unfold Excludes
  simp only [literalMatches_congr h]

theorem leafMatches_congr (h : ∀ key, table.get? key = other.get? key) (content : Leaf) :
    content.Matches table direction input = content.Matches other direction input := by
  have hlabel : ∀ label : Label α, (∀ table : MacroTable α,
      content.label table direction = .ok label) →
        (∀ index, label.pass? table input index = label.pass? other input index) →
          content.Matches table direction input = content.Matches other direction input := by
    intro label hlabel hpass
    rw [Leaf.matches_of_label label (hlabel table), Leaf.matches_of_label label (hlabel other)]
    simp only [hpass]
  cases content with
  | literal text => rw [Leaf.matches_literal, Leaf.matches_literal, literalMatches_congr h]
  | boundary =>
      funext index stop
      simp [Leaf.Matches, Leaf.label]
  | wildcard => exact hlabel (.take .wildcard) (fun _ => rfl) (fun _ => rfl)
  | inputStart => exact hlabel (.take .inputStart) (fun _ => rfl) (fun _ => rfl)
  | inputEnd => exact hlabel (.take .inputEnd) (fun _ => rfl) (fun _ => rfl)
  | epsilon => exact hlabel .epsilon (fun _ => rfl) (fun _ => rfl)

namespace Tree

/-- Where a tree matches depends on what the keys stand for and not on their order. -/
theorem matches_congr (h : ∀ key, table.get? key = other.get? key) (tree : Tree) :
    tree.Matches table direction input = tree.Matches other direction input := by
  induction tree with
  | leaf content mark => simp only [Matches, excludes_congr h, leafMatches_congr h]
  | sequence children mark ih =>
      have hturn : MatchesInTurn table direction input children =
          MatchesInTurn other direction input children := by
        induction children with
        | nil => rfl
        | cons child rest ihrest =>
            rw [MatchesInTurn, MatchesInTurn, ih child List.mem_cons_self,
              ihrest fun sibling hmem => ih sibling (List.mem_cons_of_mem _ hmem)]
      simp only [Matches, excludes_congr h, hturn]
  | alternation children mark ih =>
      have hany : MatchesAny table direction input children =
          MatchesAny other direction input children := by
        induction children with
        | nil => rfl
        | cons child rest ihrest =>
            rw [MatchesAny, MatchesAny, ih child List.mem_cons_self,
              ihrest fun sibling hmem => ih sibling (List.mem_cons_of_mem _ hmem)]
      simp only [Matches, excludes_congr h, hany]

end Tree

namespace Automaton

theorem endsFrom_congr (h : ∀ key, table.get? key = other.get? key) {tree : Tree}
    {automaton automaton' : Automaton α} (hautomaton : ofTree tree table direction = .ok automaton)
    (hautomaton' : ofTree tree other direction = .ok automaton') (input : Array α) (start : Nat) :
    automaton.endsFrom input start = automaton'.endsFrom input start := by
  have hmatches : tree.Matches (table.orient direction) direction input =
      tree.Matches (other.orient direction) direction input :=
    Tree.matches_congr (MacroTable.get?_orient_congr h direction) tree
  apply IndexSet.ext
  intro stop
  rw [mem_endsFrom_iff hautomaton, mem_endsFrom_iff hautomaton', hmatches]

/--
Declarations that say the same, in whatever order and however often, have the same effect: either
building fails with the same fault, or the trees are the same and so is all that is found.
-/
theorem ofPattern_declared_alike {symbols symbols' : List (List Char)}
    (hmacros : ∀ key, table.get? key = other.get? key)
    (hsymbols : ∀ text, text ≠ [] →
      (text ∈ symbols ++ table.keys ↔ text ∈ symbols' ++ other.keys))
    (pattern : List Char) (direction : Direction) :
    (∃ fault, ofPattern pattern direction symbols table = .error fault ∧
      ofPattern pattern direction symbols' other = .error fault) ∨
    ∃ automaton automaton', ofPattern pattern direction symbols table = .ok automaton ∧
      ofPattern pattern direction symbols' other = .ok automaton' ∧
      automaton.tree = automaton'.tree ∧
      ∀ input start, automaton.endsFrom input start = automaton'.endsFrom input start := by
  have hparse : Tree.parse (Vocabulary.ofList (symbols ++ table.keys)) direction pattern =
      Tree.parse (Vocabulary.ofList (symbols' ++ other.keys)) direction pattern := by
    apply Tree.parse_congr
    intro symbol
    rw [Vocabulary.mem_symbols_ofList, Vocabulary.mem_symbols_ofList]
    exact and_congr_left (hsymbols symbol)
  unfold ofPattern
  rw [← hparse]
  cases htree : Tree.parse (Vocabulary.ofList (symbols ++ table.keys)) direction pattern with
  | error fault => exact Or.inl ⟨_, rfl, rfl⟩
  | ok tree =>
      have hfails : FailsAt (tree.texts.find? table.isUnresolved) (ofTree tree table direction) :=
        failsAt_ofTree htree
      have hfails' : FailsAt (tree.texts.find? table.isUnresolved)
          (ofTree tree other direction) := by
        rw [MacroTable.isUnresolved_congr hmacros]
        exact failsAt_ofTree htree
      cases hfirst : tree.texts.find? table.isUnresolved with
      | some key =>
          rw [hfirst] at hfails hfails'
          have herror : ofTree tree table direction = .error (.unresolvedMacro key) := hfails
          have herror' : ofTree tree other direction = .error (.unresolvedMacro key) := hfails'
          simp only [herror, herror']
          exact Or.inl ⟨_, rfl, rfl⟩
      | none =>
          rw [hfirst] at hfails hfails'
          obtain ⟨automaton, hautomaton⟩ := hfails
          obtain ⟨automaton', hautomaton'⟩ := hfails'
          simp only [hautomaton, hautomaton']
          have hsame := (tree_of_ofTree hautomaton).trans (tree_of_ofTree hautomaton').symm
          exact Or.inr ⟨_, _, rfl, rfl, hsame, endsFrom_congr hmacros hautomaton hautomaton'⟩

/--
Two symbols of one width in either order, macros with exchanged numbers, and the key of a macro that
is declared as a symbol too.
-/
theorem found_alike_in_any_order :
    let pattern := ['é', 'a', 'b', '?', '!', '{', 'n', ' ', 'q', '}', 'm']
    let symbols := [['é'], ['a', 'b'], ['é']]
    let symbols' := [['n'], ['a', 'b'], ['é']]
    let table := ((∅ : MacroTable Char).insert ['m'] [['x'], ['x', 'y']]).insert ['n'] [['z']]
    let table' := ((∅ : MacroTable Char).insert ['n'] [['z']]).insert ['m'] [['x'], ['x', 'y']]
    ∃ automaton automaton', ofPattern pattern .backward symbols table = .ok automaton ∧
      ofPattern pattern .backward symbols' table' = .ok automaton' ∧
      automaton.tree = automaton'.tree ∧
      ∀ input start, automaton.endsFrom input start = automaton'.endsFrom input start := by
  intro pattern symbols symbols' table table'
  have hmacros : ∀ key, table.get? key = table'.get? key := by
    intro key
    simp only [table, table', MacroTable.get?_insert]
    by_cases hkey : ['m'] = key
    · simp [← hkey]
    · simp [hkey]
  have hsymbols : ∀ text, text ≠ [] →
      (text ∈ symbols ++ table.keys ↔ text ∈ symbols' ++ table'.keys) := by
    intro text _
    have hkeys : table.keys = [['m'], ['n']] := rfl
    have hkeys' : table'.keys = [['n'], ['m']] := rfl
    simp only [symbols, symbols', hkeys, hkeys', List.cons_append, List.nil_append, List.mem_cons,
      List.not_mem_nil, or_false]
    tauto
  have hvocabulary : Vocabulary.ofList (symbols ++ table.keys) =
      ⟨[['é'], ['a', 'b'], ['m'], ['n']], by decide, by decide, by decide⟩ := rfl
  have hparse : Tree.parse (Vocabulary.ofList (symbols ++ table.keys)) .backward pattern =
      .ok (.sequence [.leaf (.literal ['m']) .plain,
        .alternation [.leaf (.literal ['n']) .plain, .leaf (.literal ['q']) .plain] ⟨true, .once⟩,
        .leaf (.literal ['a', 'b']) ⟨false, .optional⟩, .leaf (.literal ['é']) .plain] .plain) := by
    rw [hvocabulary]
    cbv
  have hbuilt : ∃ automaton, ofPattern pattern .backward symbols table = .ok automaton :=
    ⟨_, ofPattern_eq_ok_iff.2 ⟨_, hparse, rfl⟩⟩
  rcases ofPattern_declared_alike hmacros hsymbols pattern .backward with
    ⟨fault, hfault, -⟩ | halike
  · obtain ⟨automaton, hautomaton⟩ := hbuilt
    rw [hfault] at hautomaton
    cases hautomaton
  · exact halike

end Automaton

end Matching

end Motif
