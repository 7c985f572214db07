import Mathlib.Data.List.Induction
import Motif.Proofs.Failure
import Motif.Proofs.Placement

/-!
# Tokens in another form

What is found does not depend on how tokens are written. If every token is given another form, so
that different tokens keep different forms and boundary markers stay boundary markers, then a tree
has the same machine for the new tokens as for the old ones, label by label, and finds the same. So
a character may as well be read as a segment of that one character.
-/

namespace Motif

variable {α β : Type} {form : α → β}

/-! ## The same things for the new tokens -/

def Atom.map (form : α → β) : Atom α → Atom β
  | .literal tokens => .literal (tokens.map form)
  | .macroRef id => .macroRef id
  | .wildcard => .wildcard
  | .inputStart => .inputStart
  | .inputEnd => .inputEnd

def Label.map (form : α → β) : Label α → Label β
  | .epsilon => .epsilon
  | .take atom => .take (atom.map form)
  | .exclude atoms => .exclude (atoms.map (Atom.map form))

def Arc.map (form : α → β) (arc : Arc α) : Arc β :=
  ⟨arc.label.map form, arc.target⟩

def Graph.map (form : α → β) (graph : Graph α) : Graph β :=
  ⟨graph.states.map (List.map (Arc.map form))⟩

def Machine.map (form : α → β) (machine : Machine α) : Machine β :=
  ⟨machine.graph.map form, machine.start, machine.accept⟩

def Assembly.map (form : α → β) (assembly : Assembly α) : Assembly β :=
  ⟨assembly.machine.map form, assembly.groups.map (Machine.map form)⟩

/-- The same keys with the same expansions in the new tokens. -/
def MacroTable.map (form : α → β) (table : MacroTable α) : MacroTable β where
  entries := table.entries.map fun entry => (entry.1, entry.2.map (List.map form))
  keys_nodup := by simpa [Function.comp_def] using table.keys_nodup

/-- The same automaton for the new tokens. -/
def Automaton.map (form : α → β) (automaton : Automaton α) : Automaton β where
  tree := automaton.tree
  direction := automaton.direction
  machine := automaton.machine.map form
  groups := automaton.groups.map (Machine.map form)
  table := automaton.table.map form

/-! ## Building with the new tokens -/

namespace Graph

@[simp] theorem size_map (graph : Graph α) : (graph.map form).size = graph.size := by
  simp [map, size]

@[simp] theorem arcsFrom_map (graph : Graph α) (state : Nat) :
    (graph.map form).arcsFrom state = (graph.arcsFrom state).map (Arc.map form) := by
  cases h : graph.states[state]? <;> simp [arcsFrom, map, h]

theorem map_newState (graph : Graph α) : graph.newState.map form = (graph.map form).newState := by
  simp [map, newState]

theorem map_connect (graph : Graph α) (source : Nat) (label : Label α) (target : Nat) :
    (graph.connect source label target).map form =
      (graph.map form).connect source (label.map form) target := by
  refine ext (by simp) fun state => ?_
  simp only [arcsFrom_map, arcsFrom_connect, size_map]
  split
  · simp [Arc.map]
  · rfl

theorem map_append (graph other : Graph α) :
    (graph.append other).map form = (graph.map form).append (other.map form) := by
  refine ext (by simp) fun state => ?_
  simp only [arcsFrom_map, arcsFrom_append, size_map]
  split
  · rfl
  · simp [Arc.map, Arc.shift, Function.comp_def]

end Graph

namespace Machine

theorem map_single (label : Label α) : (single label).map form = single (label.map form) := by
  simp [single, map, Graph.map, Arc.map]

theorem map_join (first second : Machine α) :
    (join first second).map form = join (first.map form) (second.map form) := by
  simp [join, map, Graph.map_connect, Graph.map_append, Label.map]

theorem map_addBranch (machine branch : Machine α) :
    (addBranch machine branch).map form = addBranch (machine.map form) (branch.map form) := by
  simp [addBranch, map, Graph.map_connect, Graph.map_append, Label.map]

theorem map_inSequence (machines : List (Machine α)) :
    (inSequence machines).map form = inSequence (machines.map (map form)) := by
  cases machines with
  | nil => exact map_single .epsilon
  | cons first rest =>
      rw [inSequence, List.map_cons, inSequence, List.foldl_map]
      exact (List.foldl_hom (map form) fun first second => (map_join first second).symm).symm

theorem map_oneOf (branches : List (Machine α)) :
    (oneOf branches).map form = oneOf (branches.map (map form)) := by
  have hdisconnected : (disconnected : Machine α).map form = disconnected := by
    simp [disconnected, map, Graph.map]
  rw [oneOf, oneOf, List.foldl_map, ← hdisconnected]
  exact (List.foldl_hom (map form) fun machine branch => (map_addBranch machine branch).symm).symm

theorem map_addEpsilonIf (wanted : Bool) (source target : Nat) (graph : Graph α) :
    (addEpsilonIf wanted source target graph).map form =
      addEpsilonIf wanted source target (graph.map form) := by
  cases wanted with
  | true => exact Graph.map_connect graph source .epsilon target
  | false => rfl

theorem map_repeated (quantifier : Quantifier) (machine : Machine α) :
    (machine.repeated quantifier).map form = (machine.map form).repeated quantifier := by
  unfold repeated
  split
  · rfl
  · simp [map, map_addEpsilonIf, Graph.map_connect, Graph.map_newState, Label.map]

end Machine

namespace Assembly

theorem map_record (isLeaf : Bool) (part : Assembly α) :
    (part.record isLeaf).map form = (part.map form).record isLeaf := by
  cases isLeaf <;> rfl

theorem map_ofLabel (quantifier : Quantifier) (label : Label α) :
    (ofLabel quantifier label).map form = ofLabel quantifier (label.map form) := by
  simp [ofLabel, map, Machine.map_repeated, Machine.map_single]

theorem map_inSequence (quantifier : Quantifier) (parts : List (Assembly α)) :
    (inSequence quantifier parts).map form = inSequence quantifier (parts.map (map form)) := by
  simp [inSequence, map, Machine.map_repeated, Machine.map_inSequence, List.map_flatMap,
    List.flatMap_map, Function.comp_def]

theorem map_oneOf (quantifier : Quantifier) (parts : List (Assembly α)) :
    (oneOf quantifier parts).map form = oneOf quantifier (parts.map (map form)) := by
  simp [oneOf, map, Machine.map_repeated, Machine.map_oneOf, List.map_flatMap,
    List.flatMap_map, Function.comp_def]

end Assembly

namespace MacroTable

variable (table : MacroTable α)

@[simp] theorem id?_map (key : List Char) : (table.map form).id? key = table.id? key := by
  simp [id?, keys, map, Function.comp_def]

@[simp] theorem expansions_map (id : Nat) :
    (table.map form).expansions id = (table.expansions id).map (List.map form) := by
  cases h : table.entries[id]? <;> simp [expansions, map, h]

theorem map_orient (direction : Direction) :
    (table.orient direction).map form = (table.map form).orient direction := by
  cases direction with
  | forward => rfl
  | backward =>
      apply ext
      simp [orient, reverse, map, Function.comp_def]

theorem map_insert (key : List Char) (expansions : List (List α)) :
    (table.insert key expansions).map form =
      (table.map form).insert key (expansions.map (List.map form)) :=
  ext (map_replaceOrAppend (List.map (List.map form)) key expansions table.entries)

end MacroTable

section Literals

variable [Token α] [Token β]

/-- Every text is written in the new tokens as it is in the old ones, token by token. -/
def SameLiterals (form : α → β) (texts : List (List Char)) : Prop :=
  ∀ text ∈ texts,
    (Token.ofLiteral text : List β) = (Token.ofLiteral text : List α).map form

theorem MacroTable.map_ofDeclarations {declared : List (List Char × List (List Char))}
    (h : ∀ entry ∈ declared, SameLiterals form entry.2) :
    (ofDeclarations declared : MacroTable α).map form = ofDeclarations declared := by
  unfold ofDeclarations
  induction declared using List.reverseRecOn with
  | nil => rfl
  | append_singleton earlier last ih =>
      rw [List.forall_mem_append, List.forall_mem_singleton] at h
      have hwords : (last.2.map Token.ofLiteral : List (List α)).map (List.map form) =
          last.2.map Token.ofLiteral := by
        rw [List.map_map]
        exact List.map_congr_left fun word hword => (h.2 word hword).symm
      rw [List.foldl_append, List.foldl_append, ← ih h.1]
      simp only [List.foldl_cons, List.foldl_nil, declare, map_insert, hwords]

variable {table : MacroTable α} {direction : Direction}

theorem literalAtom_map {text : List Char} (h : SameLiterals form [text]) :
    literalAtom (table.map form) direction text =
      (literalAtom table direction text).map (Atom.map form) := by
  unfold literalAtom
  rw [MacroTable.id?_map]
  cases table.id? text with
  | some id =>
      simp only [MacroTable.expansions_map, List.isEmpty_map]
      split <;> rfl
  | none =>
      have htext := h text (List.mem_singleton_self text)
      cases direction <;> simp [Direction.orientTokens, htext, Except.map, Atom.map]

theorem literalAtoms_map {texts : List (List Char)} (h : SameLiterals form texts) :
    literalAtoms (table.map form) direction texts =
      (literalAtoms table direction texts).map (List.map (Atom.map form)) := by
  induction texts with
  | nil => rfl
  | cons text rest ih =>
      have hboth := List.forall_mem_cons.1 h
      rw [literalAtoms, literalAtoms, literalAtom_map (List.forall_mem_singleton.2 hboth.1),
        ih hboth.2]
      exact map_bind_eq fun _ => map_bind_eq fun _ => rfl

theorem exclusionLabel_map {choices : Option (List (List Char))}
    (h : ∀ texts, choices = some texts → SameLiterals form texts) :
    exclusionLabel (table.map form) direction choices =
      (exclusionLabel table direction choices).map (Label.map form) := by
  cases choices with
  | none => rfl
  | some texts =>
      rw [exclusionLabel, exclusionLabel, literalAtoms_map (h texts rfl)]
      exact map_bind_eq fun _ => rfl

theorem Leaf.label_map {content : Leaf} {mark : Mark}
    (h : SameLiterals form (Tree.leaf content mark).texts) :
    content.label (table.map form) direction =
      (content.label table direction).map (Label.map form) := by
  cases content with
  | literal text =>
      rw [label, label, literalAtom_map h]
      exact map_bind_eq fun _ => rfl
  | wildcard | boundary | inputStart | inputEnd | epsilon => rfl

namespace Tree

theorem assembleEach_map {children : List Tree}
    (h : ∀ child ∈ children, child.assemble (table.map form) direction =
      (child.assemble table direction).map (Assembly.map form)) :
    assembleEach (table.map form) direction children =
      (assembleEach table direction children).map (List.map (Assembly.map form)) := by
  induction children with
  | nil => rfl
  | cons child rest ih =>
      rw [List.forall_mem_cons] at h
      rw [assembleEach, assembleEach, h.1, ih h.2]
      refine map_bind_eq fun part => map_bind_eq fun parts => ?_
      rw [Except.map, List.map_cons, Assembly.map_record]

theorem assemble_map {tree : Tree} :
    SameLiterals form tree.texts →
      tree.assemble (table.map form) direction =
        (tree.assemble table direction).map (Assembly.map form) := by
  have hnegated : ∀ {tree : Tree}, SameLiterals form tree.texts →
      exclusionLabel (table.map form) direction tree.choices =
        (exclusionLabel table direction tree.choices).map (Label.map form) := by
    intro tree h
    apply exclusionLabel_map
    intro texts hchoices
    rwa [← texts_of_choices hchoices]
  have hlabel : ∀ (mark : Mark) (label : Label α),
      (.ok (Assembly.ofLabel mark.quantifier (label.map form)) : Except AssemblyFault _) =
        (Except.ok (Assembly.ofLabel mark.quantifier label)).map (Assembly.map form) := by
    intro mark label
    rw [Except.map, Assembly.map_ofLabel]
  induction tree with
  | leaf content mark =>
      intro h
      rw [assemble, assemble, hnegated h, Leaf.label_map h]
      split
      · exact map_bind_eq (hlabel mark)
      · exact map_bind_eq (hlabel mark)
  | sequence children mark ih =>
      intro h
      rw [assemble, assemble]
      split
      · rw [hnegated h]
        exact map_bind_eq (hlabel mark)
      · rw [texts_sequence] at h
        rw [assembleEach_map fun child hmem => ih child hmem fun text htext =>
          h text (List.mem_flatMap.2 ⟨child, hmem, htext⟩)]
        refine map_bind_eq fun parts => ?_
        rw [Except.map, Assembly.map_inSequence]
  | alternation children mark ih =>
      intro h
      rw [assemble, assemble]
      split
      · rw [hnegated h]
        exact map_bind_eq (hlabel mark)
      · rw [texts_alternation] at h
        rw [assembleEach_map fun child hmem => ih child hmem fun text htext =>
          h text (List.mem_flatMap.2 ⟨child, hmem, htext⟩)]
        refine map_bind_eq fun parts => ?_
        rw [Except.map, Assembly.map_oneOf]

end Tree

theorem Automaton.ofTree_map {tree : Tree} (h : SameLiterals form tree.texts) :
    ofTree tree (table.map form) direction = (ofTree tree table direction).map (map form) := by
  rw [ofTree, ofTree, ← MacroTable.map_orient, Tree.assemble_map h]
  exact map_bind_eq fun _ => rfl

end Literals

/-! ## Matching with the new tokens -/

section Matching

variable [Token α] [Token β]

/-- Different tokens keep different forms, and the boundary markers are those of the old tokens. -/
structure Token.Keeps (form : α → β) : Prop where
  injective : Function.Injective form
  isBoundary : ∀ token : α, Token.isBoundary (form token) = Token.isBoundary token

variable [DecidableEq α] [DecidableEq β] {table : MacroTable α} {input : Array α} {index : Nat}

namespace Token.Keeps

variable (h : Token.Keeps form)
include h

theorem occursAt_map (wanted : List α) :
    Token.occursAt (input.map form) index (wanted.map form) =
      Token.occursAt input index wanted := by
  induction wanted generalizing index with
  | nil => simp [Token.occursAt]
  | cons token rest ih =>
      have hhead : (input.map form)[index]? = some (form token) ↔ input[index]? = some token := by
        rw [Array.getElem?_map, ← Option.map_some]
        exact (Option.map_injective h.injective).eq_iff
      rw [List.map_cons, Token.occursAt, Token.occursAt, ih, decide_eq_decide.2 hhead]

omit [DecidableEq α] [DecidableEq β] in
theorem isOrdinaryAt_map :
    Token.isOrdinaryAt (input.map form) index = Token.isOrdinaryAt input index := by
  have hboundary : Token.hasBoundaryAt (input.map form) index =
      Token.hasBoundaryAt input index := by
    unfold Token.hasBoundaryAt
    rw [Array.getElem?_map]
    cases input[index]? with
    | none => rfl
    | some token => exact h.isBoundary token
  rw [Token.isOrdinaryAt, Token.isOrdinaryAt, hboundary, Array.size_map]

theorem atom_pass?_map (atom : Atom α) :
    (atom.map form).pass? (table.map form) (input.map form) index =
      atom.pass? table input index := by
  cases atom with
  | literal tokens => simp only [Atom.map, Atom.pass?, h.occursAt_map, List.length_map]
  | macroRef id =>
      have hseen : Token.occursAt (input.map form) index ∘ List.map form =
          Token.occursAt input index :=
        funext fun tokens => h.occursAt_map tokens
      rw [Atom.map, Atom.pass?, Atom.pass?, MacroTable.expansions_map, List.find?_map, hseen]
      cases (table.expansions id).find? (Token.occursAt input index) <;> simp
  | wildcard => simp only [Atom.map, Atom.pass?, h.isOrdinaryAt_map]
  | inputStart => rfl
  | inputEnd => simp only [Atom.map, Atom.pass?, Array.size_map]

theorem label_pass?_map (label : Label α) :
    (label.map form).pass? (table.map form) (input.map form) index =
      label.pass? table input index := by
  cases label with
  | epsilon => rfl
  | take atom => exact h.atom_pass?_map atom
  | exclude atoms =>
      simp only [Label.map, Label.pass?, h.isOrdinaryAt_map, List.all_map, Function.comp_def,
        h.atom_pass?_map]

theorem step_map (graph : Graph α) :
    (graph.map form).Step (table.map form) (input.map form) = graph.Step table input := by
  funext current next
  refine propext ?_
  unfold Graph.Step
  simp only [Graph.arcsFrom_map, List.mem_map, exists_exists_and_eq_and, Arc.map,
    h.label_pass?_map]

theorem ends_map (machine : Machine α) :
    (machine.map form).ends (table.map form) (input.map form) index =
      machine.ends table input index := by
  apply IndexSet.ext
  intro stop
  rw [Machine.mem_ends_iff, Machine.mem_ends_iff, Array.size_map]
  unfold Machine.Runs Graph.Reaches
  rw [Machine.map, h.step_map]

end Token.Keeps

namespace Automaton

variable (h : Token.Keeps form) (automaton : Automaton α)
include h

theorem endsFrom_map : (automaton.map form).endsFrom (input.map form) index =
    automaton.endsFrom input index :=
  h.ends_map automaton.machine

theorem hits_map : (automaton.map form).hits (input.map form) = automaton.hits input := by
  simp only [hits, Array.size_map, endsFrom_map h]

theorem matchesWhole_map :
    (automaton.map form).matchesWhole (input.map form) = automaton.matchesWhole input := by
  simp only [matchesWhole, Array.size_map, endsFrom_map h]

theorem startsTo_map : (automaton.map form).startsTo (input.map form) index =
    automaton.startsTo input index := by
  simp only [startsTo, Array.size_map, ← Array.map_reverse, endsFrom_map h]
  rfl

end Automaton

end Matching

/-! ## Characters as segments -/

def Segment.ofChar (c : Char) : Segment :=
  ⟨[c]⟩

/-- A text of one character that is not blank. -/
def Text.IsSingle (text : List Char) : Prop :=
  ∃ c, text = [c] ∧ Text.isBlank c = false

theorem Segment.keeps_ofChar : Token.Keeps Segment.ofChar where
  injective left right heq := by simpa [ofChar] using heq
  isBoundary c := by simp [ofChar, Token.isBoundary]

theorem Segment.sameLiterals_ofChar {texts : List (List Char)}
    (h : ∀ text ∈ texts, Text.IsSingle text) : SameLiterals ofChar texts := by
  intro text htext
  obtain ⟨c, rfl, hc⟩ := h text htext
  simp [Token.ofLiteral, Text.words, Text.wordsFrom, Text.finishWord, hc, ofChar]

namespace Automaton

/--
If all literals and all expansions are single characters, then characters may as well be read as
segments: a tree has an automaton for both kinds of token or the same fault for both, and both
automata find the same in every text.
-/
theorem ofTree_segments_alike {tree : Tree} {declared : List (List Char × List (List Char))}
    (htree : ∀ text ∈ tree.texts, Text.IsSingle text)
    (hdeclared : ∀ entry ∈ declared, ∀ word ∈ entry.2,
      Text.IsSingle word) (direction : Direction) :
    (∃ fault,
      ofTree tree (MacroTable.ofDeclarations declared : MacroTable Char) direction =
        .error fault ∧
      ofTree tree (MacroTable.ofDeclarations declared : MacroTable Segment) direction =
        .error fault) ∨
    ∃ characters segments,
      ofTree tree (MacroTable.ofDeclarations declared : MacroTable Char) direction =
        .ok characters ∧
      ofTree tree (MacroTable.ofDeclarations declared : MacroTable Segment) direction =
        .ok segments ∧
      ∀ text : List Char,
        let input := text.toArray
        let symbols := (text.map fun c => Segment.mk [c]).toArray
        (∀ start, characters.endsFrom input start = segments.endsFrom symbols start) ∧
        characters.hits input = segments.hits symbols ∧
        characters.matchesWhole input = segments.matchesWhole symbols ∧
        ∀ stop, characters.startsTo input stop = segments.startsTo symbols stop := by
  have htable : (MacroTable.ofDeclarations declared : MacroTable Char).map Segment.ofChar =
      MacroTable.ofDeclarations declared :=
    MacroTable.map_ofDeclarations fun entry hentry =>
      Segment.sameLiterals_ofChar (hdeclared entry hentry)
  have hsame : ofTree tree (MacroTable.ofDeclarations declared : MacroTable Segment) direction =
      (ofTree tree (MacroTable.ofDeclarations declared) direction).map (map Segment.ofChar) := by
    rw [← htable]
    exact ofTree_map (Segment.sameLiterals_ofChar htree)
  cases hcharacters : ofTree tree (MacroTable.ofDeclarations declared : MacroTable Char) direction
    with
  | error fault =>
      rw [hcharacters] at hsame
      exact Or.inl ⟨fault, rfl, hsame⟩
  | ok characters =>
      rw [hcharacters] at hsame
      refine Or.inr ⟨characters, characters.map Segment.ofChar, rfl, hsame, fun text => ?_⟩
      have hsymbols : (text.map fun c => Segment.mk [c]).toArray =
          text.toArray.map Segment.ofChar := by
        rw [List.map_toArray]
        rfl
      have hkeeps := Segment.keeps_ofChar
      dsimp only
      rw [hsymbols]
      exact ⟨fun start => (endsFrom_map hkeeps characters).symm,
        (hits_map hkeeps characters).symm, (matchesWhole_map hkeeps characters).symm,
        fun stop => (startsTo_map hkeeps characters).symm⟩

/-- A negated macro before a loop and a literal boundary marker, read backward. -/
theorem found_alike_as_segments :
    let tree := Tree.sequence
      [.leaf (.literal ['m']) ⟨true, .optional⟩, .leaf .wildcard ⟨false, .oneOrMore⟩,
        .leaf (.literal ['#']) .plain] .plain
    let declared := [(['m'], [['x'], ['#']])]
    ∃ characters segments,
      ofTree tree (MacroTable.ofDeclarations declared : MacroTable Char) .backward =
        .ok characters ∧
      ofTree tree (MacroTable.ofDeclarations declared : MacroTable Segment) .backward =
        .ok segments ∧
      ∀ text : List Char,
        let input := text.toArray
        let symbols := (text.map fun c => Segment.mk [c]).toArray
        (∀ start, characters.endsFrom input start = segments.endsFrom symbols start) ∧
        characters.hits input = segments.hits symbols ∧
        characters.matchesWhole input = segments.matchesWhole symbols ∧
        ∀ stop, characters.startsTo input stop = segments.startsTo symbols stop := by
  intro tree declared
  have htree : ∀ text ∈ tree.texts, Text.IsSingle text := by
    intro text htext
    rcases List.mem_pair.1 (show text ∈ [['m'], ['#']] from htext) with rfl | rfl
    · exact ⟨'m', rfl, by decide⟩
    · exact ⟨'#', rfl, by decide⟩
  have hdeclared : ∀ entry ∈ declared, ∀ word ∈ entry.2,
      Text.IsSingle word := by
    intro entry hentry word hword
    obtain rfl := List.mem_singleton.1 hentry
    rcases List.mem_pair.1 hword with rfl | rfl
    · exact ⟨'x', rfl, by decide⟩
    · exact ⟨'#', rfl, by decide⟩
  have hbuilt : ∃ characters,
      ofTree tree (MacroTable.ofDeclarations declared : MacroTable Char) .backward =
        .ok characters := ⟨_, rfl⟩
  rcases ofTree_segments_alike htree hdeclared .backward with ⟨fault, hfault, -⟩ | halike
  · obtain ⟨characters, hcharacters⟩ := hbuilt
    rw [hfault] at hcharacters
    cases hcharacters
  · exact halike

end Automaton

end Motif
