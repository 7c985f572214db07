import Motif.Proofs.Boundaries
import Motif.Proofs.Mirror.Literal

/-!
# Reading from the other end

A tree turned around matches the reversed input between the mirrored indices, and its backward
automaton finds the same matches as the forward automaton of the tree itself, if the readings of
every literal read alike and all that is excluded excludes alike.
-/

namespace Motif

section Leaves

variable {α : Type} [DecidableEq α] [Token α] {table : MacroTable α} {direction : Direction}
  {input : Array α}

theorem Leaf.matches_wildcard :
    Leaf.wildcard.Matches table direction input = NoneSeen input [] := by
  rw [Leaf.matches_of_label (.take .wildcard) rfl]
  funext index stop
  simp only [NoneSeen, Label.pass?, Atom.pass?, Token.isOrdinaryAt, Option.ite_none_right_eq_some,
    Bool.and_eq_true, decide_eq_true_eq, Option.some.injEq, List.not_mem_nil, false_implies,
    implies_true, and_true, Bool.not_eq_eq_eq_not, Bool.not_true, eq_iff_iff]
  rw [and_comm, @eq_comm _ stop]

/-- Labels mirror each other if what the one passes is passed by the other one the other way. -/
theorem mirrors_pass? {label mirrored : Label α}
    (h : ∀ index stop, index ≤ input.size → stop ≤ input.size →
      (label.pass? table input index = some stop ↔
        mirrored.pass? table.reverse input.reverse (input.size - stop) =
          some (input.size - index))) :
    Mirrors input.size (fun index stop => label.pass? table input index = some stop)
      fun index stop => mirrored.pass? table.reverse input.reverse index = some stop := by
  refine ⟨?_, ?_, h⟩
  · intro index stop hindex hpass
    exact (Label.bounds_of_pass? hindex hpass).2
  · intro index stop hindex hpass
    rw [← Array.size_reverse] at hindex ⊢
    exact (Label.bounds_of_pass? hindex hpass).2

/-- A leaf mirrors itself, but for the two ends of the input, which mirror each other. -/
theorem mirrors_leaf {content : Leaf}
    (h : ∀ text, content = .literal text → ReadsAlike (table.readings .forward text)) :
    Mirrors input.size (content.Matches table .forward input)
      (content.flip.Matches table.reverse .backward input.reverse) := by
  cases content with
  | literal text =>
      rw [show (Leaf.literal text).flip = .literal text from rfl, Leaf.matches_literal,
        Leaf.matches_literal]
      exact mirrors_literalMatches (h text rfl)
  | wildcard =>
      rw [show Leaf.wildcard.flip = .wildcard from rfl, Leaf.matches_wildcard,
        Leaf.matches_wildcard]
      have hnothing : ExcludesAlike ([] : List (List α)) := by simp [ExcludesAlike]
      exact mirrors_noneSeen hnothing
  | boundary =>
      apply Mirrors.never
      · intro index stop _ hfound
        rcases hfound with ⟨label, hlabel, -⟩
        cases hlabel
      · intro index stop _ hfound
        rcases hfound with ⟨label, hlabel, -⟩
        cases hlabel
  | inputStart =>
      rw [Leaf.matches_of_label (.take .inputStart) rfl,
        Leaf.matches_of_label (.take .inputEnd) rfl]
      apply mirrors_pass?
      intro index stop hindex hstop
      simp only [Label.pass?, Atom.pass?, Array.size_reverse, Option.ite_none_right_eq_some,
        Option.some.injEq]
      omega
  | inputEnd =>
      rw [Leaf.matches_of_label (.take .inputEnd) rfl,
        Leaf.matches_of_label (.take .inputStart) rfl]
      apply mirrors_pass?
      intro index stop hindex hstop
      simp only [Label.pass?, Atom.pass?, Option.ite_none_right_eq_some, Option.some.injEq]
      omega
  | epsilon =>
      rw [Leaf.matches_of_label .epsilon rfl,
        Leaf.matches_of_label .epsilon rfl]
      apply mirrors_pass?
      intro index stop hindex hstop
      simp only [Label.pass?, Option.some.injEq]
      omega

end Leaves

namespace Tree

/-! ## Negated items -/

mutual

/-- The choices of the outermost negated items of a tree, from left to right. -/
def exclusions : Tree → List (List (List Char))
  | .leaf content mark => if mark.negated then (Tree.leaf content mark).choices.toList else []
  | .sequence children mark =>
      if mark.negated then (Tree.sequence children mark).choices.toList
      else exclusionsEach children
  | .alternation children mark =>
      if mark.negated then (Tree.alternation children mark).choices.toList
      else exclusionsEach children

def exclusionsEach : List Tree → List (List (List Char))
  | [] => []
  | child :: rest => exclusions child ++ exclusionsEach rest

end

theorem exclusionsEach_eq_flatMap (trees : List Tree) :
    exclusionsEach trees = trees.flatMap exclusions := by
  induction trees with
  | nil => simp [exclusionsEach]
  | cons child rest ih => simp [exclusionsEach, ih]

theorem exclusions_of_negated {tree : Tree} (h : tree.mark.negated = true) :
    tree.exclusions = tree.choices.toList := by
  cases tree with
  | leaf content mark => exact if_pos h
  | sequence children mark => exact if_pos h
  | alternation children mark => exact if_pos h

theorem literals_of_negated {tree : Tree} (h : tree.mark.negated = true) :
    tree.literals false = tree.literals true := by
  cases tree with
  | leaf content mark =>
      have hmark : mark.negated = true := h
      cases content <;> simp [literals, hmark]
  | sequence children mark =>
      have hmark : mark.negated = true := h
      simp [literals, hmark]
  | alternation children mark =>
      have hmark : mark.negated = true := h
      simp [literals, hmark]

theorem mem_literals_of_mem_exclusions {tree : Tree} {texts : List (List Char)}
    {text : List Char} (h : texts ∈ tree.exclusions) (htext : text ∈ texts) :
    (true, text) ∈ tree.literals false := by
  have hnegated : ∀ {tree : Tree}, tree.mark.negated = true →
      texts ∈ tree.exclusions → (true, text) ∈ tree.literals false := by
    intro tree hmark h
    rw [exclusions_of_negated hmark, Option.mem_toList] at h
    rw [literals_of_negated hmark, literals_of_choices h]
    exact List.mem_map_of_mem htext
  induction tree with
  | leaf content mark =>
      cases hmark : mark.negated with
      | true => exact hnegated hmark h
      | false => simp [exclusions, hmark] at h
  | sequence children mark ih =>
      cases hmark : mark.negated with
      | true => exact hnegated hmark h
      | false =>
          rw [exclusions, if_neg (by simp [hmark]), exclusionsEach_eq_flatMap] at h
          obtain ⟨child, hmem, hchild⟩ := List.mem_flatMap.1 h
          rw [literals, hmark, literalsEach_eq_flatMap]
          exact List.mem_flatMap.2 ⟨child, hmem, ih child hmem hchild⟩
  | alternation children mark ih =>
      cases hmark : mark.negated with
      | true => exact hnegated hmark h
      | false =>
          rw [exclusions, if_neg (by simp [hmark]), exclusionsEach_eq_flatMap] at h
          obtain ⟨child, hmem, hchild⟩ := List.mem_flatMap.1 h
          rw [literals, hmark, literalsEach_eq_flatMap]
          exact List.mem_flatMap.2 ⟨child, hmem, ih child hmem hchild⟩

section Mirroring

variable {α : Type} [DecidableEq α] [Token α] {table : MacroTable α} {direction : Direction}
  {input : Array α}

theorem matchesInTurn_append {first second : List Tree} :
    ∀ {index stop : Nat},
      MatchesInTurn table direction input (first ++ second) index stop ↔
        ∃ middle, MatchesInTurn table direction input first index middle ∧
          MatchesInTurn table direction input second middle stop := by
  induction first with
  | nil => simp [MatchesInTurn]
  | cons child rest ih =>
      intro index stop
      simp only [List.cons_append, MatchesInTurn, ih]
      constructor
      · intro h
        rcases h with ⟨next, hchild, middle, hrest, hsecond⟩
        exact ⟨middle, ⟨next, hchild, hrest⟩, hsecond⟩
      · intro h
        rcases h with ⟨middle, ⟨next, hchild, hrest⟩, hsecond⟩
        exact ⟨next, hchild, middle, hrest, hsecond⟩

theorem matchesInTurn_concat {first : List Tree} {last : Tree} :
    MatchesInTurn table direction input (first ++ [last]) = fun index stop =>
      ∃ middle, MatchesInTurn table direction input first index middle ∧
        last.Matches table direction input middle stop := by
  funext index stop
  simp [matchesInTurn_append, MatchesInTurn]

/-- Trees that are mirrored one by one are mirrored in a row, last to first. -/
theorem mirrors_inTurn {children : List Tree}
    (h : ∀ child ∈ children, Mirrors input.size (child.Matches table .forward input)
      (child.flip.Matches table.reverse .backward input.reverse)) :
    Mirrors input.size (MatchesInTurn table .forward input children)
      (MatchesInTurn table.reverse .backward input.reverse (flipEach children).reverse) := by
  induction children with
  | nil => exact Mirrors.stay
  | cons child rest ih =>
      rw [flipEach, List.reverse_cons, matchesInTurn_concat]
      exact (h child List.mem_cons_self).comp
        (ih fun other hmem => h other (List.mem_cons_of_mem _ hmem))

theorem mirrors_any {children : List Tree}
    (h : ∀ child ∈ children, Mirrors input.size (child.Matches table .forward input)
      (child.flip.Matches table.reverse .backward input.reverse)) :
    Mirrors input.size (MatchesAny table .forward input children)
      (MatchesAny table.reverse .backward input.reverse (flipEach children)) := by
  induction children with
  | nil => exact Mirrors.never (fun _ _ _ => id) (fun _ _ _ => id)
  | cons child rest ih =>
      exact (h child List.mem_cons_self).either
        (ih fun other hmem => h other (List.mem_cons_of_mem _ hmem))

/--
Turning a tree around mirrors its matches, if the readings of every literal outside the negated
items read alike and the choices of every negated item exclude alike.
-/
theorem mirrors_flip_of_alike {tree : Tree} :
    (∀ text, (false, text) ∈ tree.literals false →
      ReadsAlike (table.readings .forward text)) →
    (∀ texts ∈ tree.exclusions,
      ExcludesAlike (texts.flatMap (table.readings .forward))) →
    Mirrors input.size (tree.Matches table .forward input)
      (tree.flip.Matches table.reverse .backward input.reverse) := by
  have hnegated : ∀ {tree : Tree}, tree.mark.negated = true →
      (∀ texts ∈ tree.exclusions,
        ExcludesAlike (texts.flatMap (table.readings .forward))) →
      Mirrors input.size (tree.Matches table .forward input)
        (tree.flip.Matches table.reverse .backward input.reverse) := by
    intro tree hmark hexclusions
    rw [matches_of_negated hmark, matches_of_negated (by rw [mark_flip, hmark]), mark_flip,
      choices_flip]
    apply Mirrors.close
    apply mirrors_excludes
    intro texts htexts
    apply hexclusions
    rw [exclusions_of_negated hmark, htexts]
    exact List.mem_singleton_self texts
  induction tree with
  | leaf content mark =>
      intro hliterals hexclusions
      cases hmark : mark.negated with
      | true => exact hnegated hmark hexclusions
      | false =>
          rw [flip, Matches, Matches, if_neg (by simp [hmark]), if_neg (by simp [hmark])]
          apply Mirrors.close
          apply mirrors_leaf
          intro text heq
          subst heq
          exact hliterals text (by simp [literals, hmark])
  | sequence children mark ih =>
      intro hliterals hexclusions
      cases hmark : mark.negated with
      | true => exact hnegated hmark hexclusions
      | false =>
          rw [literals, hmark, literalsEach_eq_flatMap, Bool.or_false] at hliterals
          rw [exclusions, if_neg (by simp [hmark]), exclusionsEach_eq_flatMap] at hexclusions
          rw [flip, Matches, Matches, if_neg (by simp [hmark]), if_neg (by simp [hmark])]
          apply Mirrors.close
          apply mirrors_inTurn
          intro child hmem
          exact ih child hmem
            (fun text htext => hliterals text (List.mem_flatMap.2 ⟨child, hmem, htext⟩))
            (fun texts htexts => hexclusions texts (List.mem_flatMap.2 ⟨child, hmem, htexts⟩))
  | alternation children mark ih =>
      intro hliterals hexclusions
      cases hmark : mark.negated with
      | true => exact hnegated hmark hexclusions
      | false =>
          rw [literals, hmark, literalsEach_eq_flatMap, Bool.or_false] at hliterals
          rw [exclusions, if_neg (by simp [hmark]), exclusionsEach_eq_flatMap] at hexclusions
          rw [flip, Matches, Matches, if_neg (by simp [hmark]), if_neg (by simp [hmark])]
          apply Mirrors.close
          apply mirrors_any
          intro child hmem
          exact ih child hmem
            (fun text htext => hliterals text (List.mem_flatMap.2 ⟨child, hmem, htext⟩))
            (fun texts htexts => hexclusions texts (List.mem_flatMap.2 ⟨child, hmem, htexts⟩))

/-- Where neither overlaps nor long exclusions occur, turning a tree around mirrors its matches. -/
theorem mirrors_flip {tree : Tree}
    (hapart : ∀ text, (false, text) ∈ tree.literals false →
      ∀ tokens ∈ table.readings .forward text,
        ∀ others ∈ table.readings .forward text,
          tokens <+: others ∨ tokens <:+ others → tokens = others)
    (hshort : ∀ text, (true, text) ∈ tree.literals false →
      ∀ tokens ∈ table.readings .forward text, tokens.length ≤ 1) :
    Mirrors input.size (tree.Matches table .forward input)
      (tree.flip.Matches table.reverse .backward input.reverse) := by
  refine mirrors_flip_of_alike (fun text htext => readsAlike_of_apart (hapart text htext)) ?_
  intro texts htexts
  apply excludesAlike_of_short
  intro word hword
  obtain ⟨text, htext, hword⟩ := List.mem_flatMap.1 hword
  exact hshort text (mem_literals_of_mem_exclusions htexts htext) word hword

/-! ## Trees that can be assembled -/

omit [DecidableEq α] in
theorem exists_literalAtoms_iff {texts : List (List Char)} :
    (∃ atoms, literalAtoms table direction texts = .ok atoms) ↔
      ∀ text ∈ texts, ∃ atom, literalAtom table direction text = .ok atom := by
  induction texts with
  | nil => simp [literalAtoms]
  | cons text rest ih =>
      rw [List.forall_mem_cons, ← ih]
      simp only [literalAtoms, bind_eq_ok_iff, Except.ok.injEq]
      constructor
      · intro h
        rcases h with ⟨atoms, atom, hatom, others, hothers, -⟩
        exact ⟨⟨atom, hatom⟩, others, hothers⟩
      · intro h
        rcases h with ⟨⟨atom, hatom⟩, others, hothers⟩
        exact ⟨_, atom, hatom, others, hothers, rfl⟩

omit [DecidableEq α] in
theorem exists_assembleEach_iff {children : List Tree} :
    (∃ parts, assembleEach table direction children = .ok parts) ↔
      ∀ child ∈ children, ∃ assembly,
        child.assemble table direction = .ok assembly := by
  induction children with
  | nil => simp [assembleEach]
  | cons child rest ih =>
      rw [List.forall_mem_cons, ← ih]
      simp only [assembleEach, bind_eq_ok_iff, Except.ok.injEq]
      constructor
      · intro h
        rcases h with ⟨parts, part, hpart, others, hothers, -⟩
        exact ⟨⟨part, hpart⟩, others, hothers⟩
      · intro h
        rcases h with ⟨⟨part, hpart⟩, others, hothers⟩
        exact ⟨_, part, hpart, others, hothers, rfl⟩

omit [DecidableEq α] in
theorem exists_exclusionLabel_iff {choices : Option (List (List Char))} :
    (∃ label, exclusionLabel table direction choices = .ok label) ↔
      ∃ texts, choices = some texts ∧ ∀ text ∈ texts,
        ∃ atom, literalAtom table direction text = .ok atom := by
  cases choices with
  | none => simp [exclusionLabel]
  | some texts =>
      simp only [exclusionLabel, exists_bind_ok_iff, exists_literalAtoms_iff, Option.some.injEq,
        exists_eq_left']

omit [DecidableEq α] in
theorem exists_assemble_iff_of_negated {tree : Tree} (h : tree.mark.negated = true) :
    (∃ assembly, tree.assemble table direction = .ok assembly) ↔
      ∃ texts, tree.choices = some texts ∧ ∀ text ∈ texts,
        ∃ atom, literalAtom table direction text = .ok atom := by
  rw [← exists_exclusionLabel_iff]
  cases tree with
  | leaf content mark =>
      have hmark : mark.negated = true := h
      simp only [assemble, hmark, if_true, exists_bind_ok_iff]
  | sequence children mark =>
      have hmark : mark.negated = true := h
      simp only [assemble, hmark, if_true, exists_bind_ok_iff]
  | alternation children mark =>
      have hmark : mark.negated = true := h
      simp only [assemble, hmark, if_true, exists_bind_ok_iff]

omit [DecidableEq α] in
theorem exists_assemble_leaf_iff {content : Leaf} {mark : Mark} (h : mark.negated = false) :
    (∃ assembly, (Tree.leaf content mark).assemble table direction = .ok assembly) ↔
      ∃ label, content.label table direction = .ok label := by
  simp only [assemble, h, Bool.false_eq_true, if_false, exists_bind_ok_iff]

omit [DecidableEq α] in
theorem exists_assemble_sequence_iff {children : List Tree} {mark : Mark}
    (h : mark.negated = false) :
    (∃ assembly, (Tree.sequence children mark).assemble table direction = .ok assembly) ↔
      ∀ child ∈ children, ∃ assembly,
        child.assemble table direction = .ok assembly := by
  simp only [assemble, h, Bool.false_eq_true, if_false, exists_bind_ok_iff,
    exists_assembleEach_iff]

omit [DecidableEq α] in
theorem exists_assemble_alternation_iff {children : List Tree} {mark : Mark}
    (h : mark.negated = false) :
    (∃ assembly, (Tree.alternation children mark).assemble table direction = .ok assembly) ↔
      ∀ child ∈ children, ∃ assembly,
        child.assemble table direction = .ok assembly := by
  simp only [assemble, h, Bool.false_eq_true, if_false, exists_bind_ok_iff,
    exists_assembleEach_iff]

/-! ## The backward assembly -/

omit [DecidableEq α] in
theorem exists_literalAtom_reverse {text : List Char}
    (h : ∃ atom, literalAtom table .forward text = .ok atom) :
    ∃ mirrored, literalAtom table.reverse .backward text = .ok mirrored := by
  obtain ⟨atom, h⟩ := h
  simp only [literalAtom_eq_ok_iff, MacroTable.id?_reverse, MacroTable.expansions_reverse] at h ⊢
  rcases h with ⟨id, hid, hne, -⟩ | ⟨hid, -⟩
  · refine ⟨.macroRef id, Or.inl ⟨id, hid, ?_, rfl⟩⟩
    simpa using hne
  · exact ⟨_, Or.inr ⟨hid, rfl⟩⟩

omit [DecidableEq α] in
/-- A tree that can be assembled forward can be turned around and assembled backward. -/
theorem exists_assemble_flip {tree : Tree} :
    (∃ assembly, tree.assemble table .forward = .ok assembly) →
      ∃ mirrored, tree.flip.assemble table.reverse .backward = .ok mirrored := by
  have hnegated : ∀ {tree : Tree}, tree.mark.negated = true →
      (∃ assembly, tree.assemble table .forward = .ok assembly) →
        ∃ mirrored, tree.flip.assemble table.reverse .backward = .ok mirrored := by
    intro tree hmark h
    rw [exists_assemble_iff_of_negated hmark] at h
    obtain ⟨texts, hchoices, hatoms⟩ := h
    rw [exists_assemble_iff_of_negated (by rw [mark_flip, hmark]), choices_flip]
    exact ⟨texts, hchoices, fun text htext => exists_literalAtom_reverse (hatoms text htext)⟩
  induction tree with
  | leaf content mark =>
      intro h
      cases hmark : mark.negated with
      | true => exact hnegated hmark h
      | false =>
          rw [exists_assemble_leaf_iff hmark] at h
          rw [flip, exists_assemble_leaf_iff hmark]
          cases content with
          | literal text =>
              simp only [Leaf.flip, Leaf.label, exists_bind_ok_iff] at h ⊢
              exact exists_literalAtom_reverse h
          | boundary =>
              obtain ⟨label, hlabel⟩ := h
              cases hlabel
          | wildcard | inputStart | inputEnd | epsilon => exact ⟨_, rfl⟩
  | sequence children mark ih =>
      intro h
      cases hmark : mark.negated with
      | true => exact hnegated hmark h
      | false =>
          rw [exists_assemble_sequence_iff hmark] at h
          rw [flip, exists_assemble_sequence_iff hmark, flipEach_eq_map]
          simp only [List.mem_reverse, List.forall_mem_map]
          exact fun child hmem => ih child hmem (h child hmem)
  | alternation children mark ih =>
      intro h
      cases hmark : mark.negated with
      | true => exact hnegated hmark h
      | false =>
          rw [exists_assemble_alternation_iff hmark] at h
          rw [flip, exists_assemble_alternation_iff hmark, flipEach_eq_map, List.forall_mem_map]
          exact fun child hmem => ih child hmem (h child hmem)

end Mirroring

end Tree

namespace Automaton

variable {α : Type} [DecidableEq α] [Token α] {table : MacroTable α}

theorem mem_startsTo_of_forward {automaton : Automaton α} (h : automaton.direction = .forward)
    {input : Array α} {index stop : Nat} :
    index ∈ automaton.startsTo input stop ↔
      (index ≤ stop ∧ stop ≤ input.size) ∧ stop ∈ automaton.endsFrom input index := by
  unfold startsTo
  rw [h]
  split
  · rename_i hlt
    exact iff_of_false (IndexSet.not_mem_empty index) (by omega)
  · rename_i hle
    simp only [IndexSet.mem_ofList, List.mem_filter, List.mem_range, decide_eq_true_eq]
    exact and_congr (by omega) Iff.rfl

theorem mem_startsTo_of_backward {automaton : Automaton α} (h : automaton.direction = .backward)
    {input : Array α} {index stop : Nat} :
    index ∈ automaton.startsTo input stop ↔
      (index ≤ stop ∧ stop ≤ input.size) ∧
        input.size - index ∈ automaton.endsFrom input.reverse (input.size - stop) := by
  unfold startsTo
  rw [h]
  split
  · rename_i hlt
    exact iff_of_false (IndexSet.not_mem_empty index) (by omega)
  · rename_i hle
    simp only [IndexSet.mem_ofList, List.mem_map, IndexSet.mem_toList]
    constructor
    · intro hfound
      rcases hfound with ⟨mirrored, hend, rfl⟩
      have hbounds := bounds_of_mem_endsFrom hend
      rw [Array.size_reverse] at hbounds
      rw [Nat.sub_sub_self hbounds.2]
      exact ⟨by omega, hend⟩
    · intro hboth
      rcases hboth with ⟨hindex, hend⟩
      exact ⟨input.size - index, hend, by omega⟩

/--
Two automata find the same starts of the matches that end at an index exactly if they find the same
matches.
-/
theorem forall_startsTo_eq_iff {forward backward : Automaton α} {input : Array α}
    (hforward : forward.direction = .forward) (hbackward : backward.direction = .backward) :
    (∀ stop, forward.startsTo input stop = backward.startsTo input stop) ↔
      ∀ index stop, index ≤ stop → stop ≤ input.size →
        (stop ∈ forward.endsFrom input index ↔
          input.size - index ∈ backward.endsFrom input.reverse (input.size - stop)) := by
  have hmem : ∀ index stop, index ∈ forward.startsTo input stop ↔
      (index ≤ stop ∧ stop ≤ input.size) ∧ stop ∈ forward.endsFrom input index :=
    fun _ _ => mem_startsTo_of_forward hforward
  have hmirrored : ∀ index stop, index ∈ backward.startsTo input stop ↔
      (index ≤ stop ∧ stop ≤ input.size) ∧
        input.size - index ∈ backward.endsFrom input.reverse (input.size - stop) :=
    fun _ _ => mem_startsTo_of_backward hbackward
  constructor
  · intro h index stop hindex hstop
    have hiff : index ∈ forward.startsTo input stop ↔ index ∈ backward.startsTo input stop := by
      rw [h stop]
    rwa [hmem, hmirrored, and_iff_right ⟨hindex, hstop⟩, and_iff_right ⟨hindex, hstop⟩] at hiff
  · intro h stop
    apply IndexSet.ext
    intro index
    rw [hmem, hmirrored]
    exact and_congr_right fun hbounds => h index stop hbounds.1 hbounds.2

/-- Two trees mirror each other exactly if their automata find the same matches. -/
theorem mirrors_iff_endsFrom {tree other : Tree} {forward backward : Automaton α}
    {input : Array α} (hforward : ofTree tree table .forward = .ok forward)
    (hbackward : ofTree other table .backward = .ok backward) :
    Mirrors input.size (tree.Matches table .forward input)
        (other.Matches table.reverse .backward input.reverse) ↔
      ∀ index stop, index ≤ stop → stop ≤ input.size →
        (stop ∈ forward.endsFrom input index ↔
          input.size - index ∈ backward.endsFrom input.reverse (input.size - stop)) := by
  have hmem : ∀ index stop, stop ∈ forward.endsFrom input index ↔
      index ≤ input.size ∧ tree.Matches table .forward input index stop :=
    fun _ _ => mem_endsFrom_iff hforward
  have hmirrored : ∀ index stop, stop ∈ backward.endsFrom input.reverse index ↔
      index ≤ input.size ∧
        other.Matches table.reverse .backward input.reverse index stop := by
    intro index stop
    rw [← Array.size_reverse]
    exact mem_endsFrom_iff hbackward
  constructor
  · intro h index stop hindex hstop
    rw [hmem, hmirrored]
    exact and_congr (by omega) (h.iff index stop (by omega) hstop)
  · intro h
    have hbounds : ∀ index stop, index ≤ input.size →
        tree.Matches table .forward input index stop → index ≤ stop ∧ stop ≤ input.size :=
      fun index stop hindex hmatch =>
        bounds_of_mem_endsFrom ((hmem index stop).2 ⟨hindex, hmatch⟩)
    have hmirroredBounds : ∀ index stop, index ≤ input.size →
        other.Matches table.reverse .backward input.reverse index stop →
          index ≤ stop ∧ stop ≤ input.size := by
      intro index stop hindex hmatch
      rw [← Array.size_reverse]
      exact bounds_of_mem_endsFrom ((hmirrored index stop).2 ⟨hindex, hmatch⟩)
    refine ⟨fun index stop hindex hmatch => (hbounds index stop hindex hmatch).2,
      fun index stop hindex hmatch => (hmirroredBounds index stop hindex hmatch).2, ?_⟩
    intro index stop hindex hstop
    by_cases hle : index ≤ stop
    · have hiff := h index stop hle hstop
      rwa [hmem, hmirrored, and_iff_right hindex, and_iff_right (Nat.sub_le _ _)] at hiff
    · -- No tree matches from an index to an earlier one.
      refine iff_of_false (fun hmatch => hle (hbounds index stop hindex hmatch).1) ?_
      intro hmatch
      have hmirroredLe := hmirroredBounds _ _ (Nat.sub_le _ _) hmatch
      omega

theorem matchesWhole_eq_of_mirrors {forward backward : Automaton α} {input : Array α}
    (h : ∀ index stop, index ≤ stop → stop ≤ input.size →
      (stop ∈ forward.endsFrom input index ↔
        input.size - index ∈ backward.endsFrom input.reverse (input.size - stop))) :
    forward.matchesWhole input = backward.matchesWhole input.reverse := by
  have hwhole := h 0 input.size (Nat.zero_le _) (Nat.le_refl _)
  rw [Nat.sub_zero, Nat.sub_self] at hwhole
  unfold matchesWhole
  rw [Array.size_reverse]
  exact decide_eq_decide.2 hwhole

omit [DecidableEq α] in
theorem direction_of_ofTree {tree : Tree} {direction : Direction} {automaton : Automaton α}
    (h : ofTree tree table direction = .ok automaton) : automaton.direction = direction := by
  obtain ⟨assembly, -, rfl⟩ := ofTree_eq_ok_iff.1 h
  rfl

omit [DecidableEq α] in
theorem tree_of_ofTree {tree : Tree} {direction : Direction} {automaton : Automaton α}
    (h : ofTree tree table direction = .ok automaton) : automaton.tree = tree := by
  obtain ⟨assembly, -, rfl⟩ := ofTree_eq_ok_iff.1 h
  rfl

omit [DecidableEq α] in
/-- What has a forward automaton has a backward one when it is turned around. -/
theorem exists_ofTree_reverse {tree : Tree} {forward : Automaton α}
    (hresolved : tree.hasBoundary = false) (h : ofTree tree table .forward = .ok forward) :
    ∃ backward, ofTree tree.reverse table .backward = .ok backward := by
  obtain ⟨assembly, hassembly, -⟩ := ofTree_eq_ok_iff.1 h
  obtain ⟨mirrored, hmirrored⟩ := Tree.exists_assemble_flip ⟨assembly, hassembly⟩
  rw [Tree.reverse_of_resolved hresolved]
  exact ⟨_, ofTree_eq_ok_iff.2 ⟨mirrored, hmirrored, rfl⟩⟩

/--
The backward automaton of a tree turned around reads every input as the forward automaton of the
tree does, only from the other end: if no expansion of a macro begins or ends another one, and if
what is excluded is at most one token long.
-/
theorem exists_backward_mirror {tree : Tree} {forward : Automaton α}
    (hresolved : tree.hasBoundary = false) (h : ofTree tree table .forward = .ok forward)
    (hapart : ∀ text expansions, (false, text) ∈ tree.literals false →
      table.get? text = some expansions → ∀ tokens ∈ expansions,
        ∀ others ∈ expansions,
          tokens <+: others ∨ tokens <:+ others → tokens = others)
    (hshort : ∀ text, (true, text) ∈ tree.literals false →
      ∀ tokens ∈ table.readings .forward text, tokens.length ≤ 1) :
    ∃ backward, ofTree tree.reverse table .backward = .ok backward ∧
      ∀ input : Array α,
        (∀ index stop, index ≤ stop → stop ≤ input.size →
          (stop ∈ forward.endsFrom input index ↔
            input.size - index ∈ backward.endsFrom input.reverse (input.size - stop))) ∧
          forward.matchesWhole input = backward.matchesWhole input.reverse ∧
            ∀ stop, forward.startsTo input stop = backward.startsTo input stop := by
  obtain ⟨backward, hbackward⟩ := exists_ofTree_reverse hresolved h
  refine ⟨backward, hbackward, fun input => ?_⟩
  have hmatches : Mirrors input.size (tree.Matches table .forward input)
      (tree.reverse.Matches table.reverse .backward input.reverse) := by
    rw [Tree.reverse_of_resolved hresolved]
    refine Tree.mirrors_flip (fun text htext => ?_) hshort
    unfold MacroTable.readings
    cases hexpansions : table.get? text with
    | none => simp
    | some expansions => exact hapart text expansions htext hexpansions
  have hends := (mirrors_iff_endsFrom h hbackward).1 hmatches
  exact ⟨hends, matchesWhole_eq_of_mirrors hends,
    (forall_startsTo_eq_iff (direction_of_ofTree h) (direction_of_ofTree hbackward)).2 hends⟩

/-- A loop over a macro between the ends of the input, before a negated macro. -/
theorem backward_mirror_of_macro_loop :
    let tree := Tree.sequence
      [.leaf .inputStart .plain, .leaf (.literal ['m']) ⟨false, .oneOrMore⟩,
        .leaf (.literal ['n']) ⟨true, .optional⟩, .leaf .inputEnd .plain] .plain
    let table := ((∅ : MacroTable Char).insert ['m'] [['x', 'y'], ['z']]).insert ['n'] [['x'], []]
    ∃ forward backward, ofTree tree table .forward = .ok forward ∧
      ofTree tree.reverse table .backward = .ok backward ∧
        ∀ input : Array Char,
          (∀ index stop, index ≤ stop → stop ≤ input.size →
            (stop ∈ forward.endsFrom input index ↔
              input.size - index ∈ backward.endsFrom input.reverse (input.size - stop))) ∧
            forward.matchesWhole input = backward.matchesWhole input.reverse ∧
              ∀ stop, forward.startsTo input stop = backward.startsTo input stop := by
  intro tree table
  have hbuilt : ∃ forward, ofTree tree table .forward = .ok forward := ⟨_, rfl⟩
  obtain ⟨forward, h⟩ := hbuilt
  have hapart : ∀ text expansions, (false, text) ∈ tree.literals false →
      table.get? text = some expansions → ∀ tokens ∈ expansions,
        ∀ others ∈ expansions,
          tokens <+: others ∨ tokens <:+ others → tokens = others := by
    intro text expansions hmem hexpansions
    have htext : text = ['m'] := by
      simpa [tree, Tree.literals, Tree.literalsEach, Mark.plain] using hmem
    have heq : expansions = [['x', 'y'], ['z']] := by
      rw [htext] at hexpansions
      exact (Option.some.inj hexpansions).symm
    subst heq
    decide
  have hshort : ∀ text, (true, text) ∈ tree.literals false →
      ∀ tokens ∈ table.readings .forward text, tokens.length ≤ 1 := by
    intro text hmem
    have htext : text = ['n'] := by
      simpa [tree, Tree.literals, Tree.literalsEach, Mark.plain] using hmem
    subst htext
    decide
  obtain ⟨backward, hbackward, hmirror⟩ := exists_backward_mirror rfl h hapart hshort
  exact ⟨forward, backward, h, hbackward, hmirror⟩

end Automaton

end Motif
