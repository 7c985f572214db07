import Mathlib.Data.List.Permutation
import Motif.Proofs.Items
import Motif.Proofs.Meaning
import Motif.Proofs.Ways

/-!
# Anchors

The arcs that ask for the start or for the end of the input are the anchors of a machine. Nothing
that is repeated holds an anchor, and every other item holds the start only in first place and the
end only in last place. So on every path through a machine no arc that sees something comes before
an arc for the start, and none comes after an arc for the end.
-/

namespace Motif

variable {α : Type}

namespace Machine

def Lacks (label : Label α) (machine : Machine α) : Prop :=
  ∀ state arc, arc ∈ machine.graph.arcsFrom state → arc.label ≠ label

/--
A machine that stands first or last, or neither, among those that a path passes. It asks for the
start of the input only if it stands first, and for the end only if it stands last; and of two arcs
that see something, one after the other on some path, the first does not ask for the end nor the
second for the start.
-/
structure Anchored (first last : Bool) (machine : Machine α) : Prop where
  no_start : first = false → machine.Lacks (.take .inputStart)
  no_end : last = false → machine.Lacks (.take .inputEnd)
  apart : ∀ state arc next later, arc ∈ machine.graph.arcsFrom state →
    machine.graph.Connects arc.target next → later ∈ machine.graph.arcsFrom next →
      arc.label ≠ .epsilon → later.label ≠ .epsilon →
        arc.label ≠ .take .inputEnd ∧ later.label ≠ .take .inputStart

variable {first last : Bool}

theorem anchored_single {label : Label α} (hstart : label = .take .inputStart → first = true)
    (hend : label = .take .inputEnd → last = true) : (single label).Anchored first last := by
  constructor
  · intro hfirst state arc harc heq
    obtain ⟨-, rfl⟩ := mem_arcsFrom_single.1 harc
    rw [hstart heq] at hfirst
    cases hfirst
  · intro hlast state arc harc heq
    obtain ⟨-, rfl⟩ := mem_arcsFrom_single.1 harc
    rw [hend heq] at hlast
    cases hlast
  · intro state arc next later harc hway hlater
    -- No arc leaves the accepting state, so no second arc can follow.
    obtain ⟨-, rfl⟩ := mem_arcsFrom_single.1 harc
    obtain ⟨rfl, -⟩ := mem_arcsFrom_single.1 hlater
    have hone : 0 = 1 := by
      apply hway.invariant (motive := fun state => state = 1) rfl
      intro state arc hstate harc
      exact absurd ((mem_arcsFrom_single.1 harc).1.symm.trans hstate) Nat.zero_ne_one
    cases hone

theorem anchored_disconnected : (disconnected : Machine α).Anchored first last := by
  have harc : ∀ {state : Nat} {arc : Arc α},
      ¬ arc ∈ (disconnected : Machine α).graph.arcsFrom state := by
    intro state arc
    rw [arcsFrom_disconnected]
    exact List.not_mem_nil
  constructor
  · exact fun _ state arc hmem => absurd hmem harc
  · exact fun _ state arc hmem => absurd hmem harc
  · exact fun state arc next later hmem => absurd hmem harc

theorem arc_join_cases {machine second : Machine α} {state : Nat} {arc : Arc α}
    (harc : arc ∈ (join machine second).graph.arcsFrom state) (hlabel : arc.label ≠ .epsilon) :
    arc ∈ machine.graph.arcsFrom state ∨
      ∃ inner innerArc, state = inner + machine.graph.size ∧
        innerArc ∈ second.graph.arcsFrom inner ∧ arc = innerArc.shift machine.graph.size := by
  rcases Graph.mem_arcsFrom_connect.1 harc with harc | ⟨-, -, rfl⟩
  · exact Graph.mem_arcsFrom_append.1 harc
  · exact absurd rfl hlabel

theorem lacks_join {machine second : Machine α} {label : Label α} (hlabel : label ≠ .epsilon)
    (hmachine : machine.Lacks label) (hsecond : second.Lacks label) :
    (join machine second).Lacks label := by
  intro state arc harc heq
  rcases arc_join_cases harc (heq ▸ hlabel) with hown | ⟨inner, innerArc, -, hown, rfl⟩
  · exact hmachine state arc hown heq
  · exact hsecond inner innerArc hown heq

/-- What stands before another machine does not stand last, and the other does not stand first. -/
theorem anchored_join {machine second : Machine α} (hmachine : machine.Anchored first false)
    (hsecond : second.Anchored false last) (hframed : machine.Framed) :
    (join machine second).Anchored first last := by
  constructor
  · exact fun hfirst => lacks_join (by simp) (hmachine.no_start hfirst) (hsecond.no_start rfl)
  · exact fun hlast => lacks_join (by simp) (hmachine.no_end rfl) (hsecond.no_end hlast)
  · intro state arc next later harc hway hlater hlabel hlabel2
    rcases arc_join_cases harc hlabel with hown | ⟨inner, innerArc, -, hown, rfl⟩
    · have hinside := connects_join_left hframed (hframed.target_lt state arc hown) hway
      rcases arc_join_cases hlater hlabel2 with hnext | ⟨inner, innerArc, -, hnext, rfl⟩
      · have hlt := Graph.lt_size_of_mem_arcsFrom hnext
        rcases hinside with ⟨-, hwithin⟩ | hbeyond
        · exact hmachine.apart state arc next later hown hwithin hnext hlabel hlabel2
        · omega
      · exact ⟨hmachine.no_end rfl state arc hown, hsecond.no_start rfl inner innerArc hnext⟩
    · obtain ⟨innerNext, rfl, hwithin⟩ := connects_join_right hframed hway
      rcases arc_join_cases hlater hlabel2 with hnext | ⟨other, laterArc, heq, hnext, rfl⟩
      · have hlt := Graph.lt_size_of_mem_arcsFrom hnext
        omega
      · have hsame : innerNext = other := by omega
        subst hsame
        exact hsecond.apart inner innerArc innerNext laterArc hown hwithin hnext hlabel hlabel2

theorem arc_addBranch_cases {machine branch : Machine α} {state : Nat} {arc : Arc α}
    (harc : arc ∈ (addBranch machine branch).graph.arcsFrom state) (hlabel : arc.label ≠ .epsilon) :
    arc ∈ machine.graph.arcsFrom state ∨
      ∃ inner innerArc, state = inner + machine.graph.size ∧
        innerArc ∈ branch.graph.arcsFrom inner ∧ arc = innerArc.shift machine.graph.size := by
  rcases Graph.mem_arcsFrom_connect.1 harc with harc | ⟨-, -, rfl⟩
  · rcases Graph.mem_arcsFrom_connect.1 harc with harc | ⟨-, -, rfl⟩
    · exact Graph.mem_arcsFrom_append.1 harc
    · exact absurd rfl hlabel
  · exact absurd rfl hlabel

theorem lacks_addBranch {machine branch : Machine α} {label : Label α} (hlabel : label ≠ .epsilon)
    (hmachine : machine.Lacks label) (hbranch : branch.Lacks label) :
    (addBranch machine branch).Lacks label := by
  intro state arc harc heq
  rcases arc_addBranch_cases harc (heq ▸ hlabel) with hown | ⟨inner, innerArc, -, hown, rfl⟩
  · exact hmachine state arc hown heq
  · exact hbranch inner innerArc hown heq

theorem anchored_addBranch {machine branch : Machine α} (hmachine : machine.Anchored first last)
    (hbranch : branch.Anchored first last) (hframed : machine.Framed) (hframed2 : branch.Framed) :
    (addBranch machine branch).Anchored first last := by
  have hdead : (addBranch machine branch).graph.arcsFrom machine.accept = [] :=
    (framed_addBranch hframed hframed2).arcsFrom_accept
  constructor
  · exact fun hfirst =>
      lacks_addBranch (by simp) (hmachine.no_start hfirst) (hbranch.no_start hfirst)
  · exact fun hlast => lacks_addBranch (by simp) (hmachine.no_end hlast) (hbranch.no_end hlast)
  · intro state arc next later harc hway hlater hlabel hlabel2
    rcases arc_addBranch_cases harc hlabel with hown | ⟨inner, innerArc, -, hown, rfl⟩
    · obtain ⟨hlt, hwithin⟩ := connects_addBranch_left hframed (hframed.target_lt state arc hown)
        (hframed.target_ne_start state arc hown) hway
      rcases arc_addBranch_cases hlater hlabel2 with hnext | ⟨inner, innerArc, heq, -, -⟩
      · exact hmachine.apart state arc next later hown hwithin hnext hlabel hlabel2
      · omega
    · rcases connects_addBranch_right hframed hframed2 hway with ⟨innerNext, rfl, hwithin⟩ | rfl
      · rcases arc_addBranch_cases hlater hlabel2 with hnext | ⟨other, laterArc, heq, hnext, rfl⟩
        · have hlt := Graph.lt_size_of_mem_arcsFrom hnext
          omega
        · have hsame : innerNext = other := by omega
          subst hsame
          exact hbranch.apart inner innerArc innerNext laterArc hown hwithin hnext hlabel hlabel2
      · rw [hdead] at hlater
        exact absurd hlater List.not_mem_nil

/-- Ways around and back do no harm to a machine without anchors, and there are no others. -/
theorem anchored_repeated {machine : Machine α} (hmachine : machine.Anchored first last)
    (hframed : machine.Framed) (quantifier : Quantifier)
    (hrepeated : quantifier ≠ .once → machine.Anchored false false) :
    (machine.repeated quantifier).Anchored first last := by
  by_cases honce : quantifier = .once
  · simpa [repeated, honce] using hmachine
  have hplain := hrepeated honce
  have harc : ∀ {state : Nat} {arc : Arc α},
      arc ∈ (machine.repeated quantifier).graph.arcsFrom state →
        arc.label ≠ .take .inputStart ∧ arc.label ≠ .take .inputEnd := by
    intro state arc hmem
    rcases (mem_arcsFrom_repeated honce hframed.accept_lt).1 hmem with
      hown | ⟨-, rfl⟩ | ⟨-, rfl⟩ | ⟨-, -, rfl⟩ | ⟨-, -, rfl⟩
    · exact ⟨hplain.no_start rfl state arc hown, hplain.no_end rfl state arc hown⟩
    all_goals exact ⟨by simp, by simp⟩
  constructor
  · exact fun _ state arc hmem => (harc hmem).1
  · exact fun _ state arc hmem => (harc hmem).2
  · exact fun state arc next later hmem _ hlater _ _ => ⟨(harc hmem).2, (harc hlater).1⟩

/-- Machines one after another of which the first may stand first, and the last may stand last. -/
def AnchoredInRow (first last : Bool) : List (Machine α) → Prop
  | [] => True
  | machine :: rest =>
      machine.Anchored first (last && rest.isEmpty) ∧ AnchoredInRow false last rest

theorem anchored_foldl_join {rest : List (Machine α)} :
    ∀ {machine : Machine α}, machine.Framed →
      (∀ other ∈ rest, other.Framed) →
        AnchoredInRow first last (machine :: rest) →
          (rest.foldl join machine).Anchored first last := by
  induction rest with
  | nil =>
      intro machine _ _ hrow
      simpa [AnchoredInRow] using hrow
  | cons second rest ih =>
      intro machine hframed hrest hrow
      obtain ⟨hmachine, hsecond, hothers⟩ := hrow
      rw [List.isEmpty_cons, Bool.and_false] at hmachine
      have hframed2 := hrest second List.mem_cons_self
      exact ih (framed_join hframed hframed2)
        (fun other hmem => hrest other (List.mem_cons_of_mem _ hmem))
        ⟨anchored_join hmachine hsecond hframed, hothers⟩

theorem anchored_inSequence {machines : List (Machine α)}
    (hframed : ∀ machine ∈ machines, machine.Framed)
    (h : AnchoredInRow first last machines) : (inSequence machines).Anchored first last := by
  cases machines with
  | nil => exact anchored_single (by simp) (by simp)
  | cons machine rest =>
      exact anchored_foldl_join (hframed machine List.mem_cons_self)
        (fun other hmem => hframed other (List.mem_cons_of_mem _ hmem)) h

theorem anchored_oneOf {branches : List (Machine α)}
    (h : ∀ branch ∈ branches, branch.Framed ∧ branch.Anchored first last) :
    (oneOf branches).Anchored first last := by
  have hall : (oneOf branches).Framed ∧ (oneOf branches).Anchored first last := by
    apply List.foldlRecOn (motive := fun machine => machine.Framed ∧ machine.Anchored first last)
      branches addBranch ⟨framed_disconnected, anchored_disconnected⟩
    intro machine hmachine branch hmem
    obtain ⟨hframed, hanchored⟩ := h branch hmem
    exact ⟨framed_addBranch hmachine.1 hframed,
      anchored_addBranch hmachine.2 hanchored hmachine.1 hframed⟩
  exact hall.2

end Machine

/-- A start of the input stands first, and an end of the input stands last. -/
def Leaf.Sided (first last : Bool) (content : Leaf) : Prop :=
  (content = inputStart → first = true) ∧ (content = inputEnd → last = true)

namespace Tree

/-! ## Ends of the input at the sides of a tree -/

theorem EachLeaf.imp {holds other : (first last : Bool) → Leaf → Prop}
    (h : ∀ first last content, holds first last content → other first last content)
    {tree : Tree} :
    ∀ {first last : Bool}, tree.EachLeaf holds first last →
      tree.EachLeaf other first last := by
  induction tree with
  | leaf content mark => exact fun hleaf => h _ _ content hleaf
  | sequence children mark ih =>
      intro first last hrow
      rw [EachLeaf] at hrow ⊢
      induction children generalizing first with
      | nil => trivial
      | cons child rest ihrest =>
          exact ⟨ih child List.mem_cons_self hrow.1,
            ihrest (fun sibling hmem => ih sibling (List.mem_cons_of_mem _ hmem)) hrow.2⟩
  | alternation children mark ih =>
      intro first last hbeside
      rw [EachLeaf, eachLeafBeside_iff] at hbeside ⊢
      exact fun child hmem => ih child hmem (hbeside child hmem)

/-- Turning a tree around exchanges the sides and the ends of the input that stand there. -/
theorem sided_flip {tree : Tree} {first last : Bool} (h : tree.EachLeaf Leaf.Sided first last) :
    tree.flip.EachLeaf Leaf.Sided last first := by
  refine (eachLeaf_flip_iff fun first last content => ?_).2 h
  cases content <;> simp [Leaf.Sided, Leaf.flip]

theorem sided_of_edgeless {tree : Tree} :
    tree.hasEdge = false → ∀ {first last : Bool}, tree.EachLeaf Leaf.Sided first last := by
  have hchildren : ∀ {children : List Tree}, anyHasBoundary (blurEach children) = false →
      ∀ child ∈ children, child.hasEdge = false := by
    intro children h child hmem
    rw [anyHasBoundary_eq_any, blurEach_eq_map, List.any_map, List.any_eq_false] at h
    exact Bool.eq_false_iff.2 (h child hmem)
  induction tree with
  | leaf content mark =>
      intro hedge first last
      cases content with
      | inputStart | inputEnd => cases hedge
      | literal text => exact ⟨nofun, nofun⟩
      | wildcard | boundary | epsilon => exact ⟨nofun, nofun⟩
  | sequence children mark ih =>
      intro hedge first last
      have hplain := hchildren hedge
      clear hedge
      rw [EachLeaf]
      induction children generalizing first with
      | nil => trivial
      | cons child rest ihrest =>
          rw [List.forall_mem_cons] at hplain
          exact ⟨ih child List.mem_cons_self hplain.1,
            ihrest (fun sibling hmem => ih sibling (List.mem_cons_of_mem _ hmem)) hplain.2⟩
  | alternation children mark ih =>
      intro hedge first last
      rw [EachLeaf, eachLeafBeside_iff]
      exact fun child hmem => ih child hmem (hchildren hedge child hmem)

/-! ## Trees that are read -/

/-- A leaf is no end of the input yet. -/
def Unsettled (item : Tree) : Prop :=
  ∀ content mark, item = .leaf content mark → content.blur = content

def Unbounded (item : Tree) : Prop :=
  item.mark.quantifier ≠ .once → item.hasBoundary = false

/-- What is repeated holds no end of the input. -/
def Edgeless (item : Tree) : Prop :=
  item.mark.quantifier ≠ .once → item.hasEdge = false

theorem Unsettled.withMark {item : Tree} (h : item.Unsettled) (mark : Mark) :
    (item.withMark mark).Unsettled := by
  intro content other heq
  cases item with
  | leaf own mark' =>
      cases heq
      exact h _ mark' rfl
  | sequence children mark' => cases heq
  | alternation children mark' => cases heq

theorem kept_unsettled : Kept Unsettled where
  leaf content hblur other mark heq := by
    cases heq
    exact hblur
  group item _ hleaf content mark heq := by
    rw [heq] at hleaf
    cases hleaf
  negate item _ hitem := hitem.withMark _
  quantify item quantifier _ hitem := hitem.withMark _

theorem kept_unbounded : Kept Unbounded where
  leaf content _ hrepeated := absurd rfl hrepeated
  group item hmark _ hrepeated := by
    rw [hmark] at hrepeated
    exact absurd rfl hrepeated
  negate item _ hitem := by
    unfold Unbounded
    rwa [negate, mark_withMark, hasBoundary_withMark]
  quantify item quantifier hplain _ _ := by rwa [quantify, hasBoundary_withMark]

theorem blur_of_unsettled {tree : Tree} : tree.All Unsettled → tree.blur = tree := by
  have heach : ∀ {children : List Tree},
      (∀ child ∈ children, child.All Unsettled → child.blur = child) →
        (∀ child ∈ children, child.All Unsettled) →
          blurEach children = children := by
    intro children ih hall
    rw [blurEach_eq_map]
    exact (List.map_congr_left fun child hmem => ih child hmem (hall child hmem)).trans
      (List.map_id children)
  induction tree with
  | leaf content mark =>
      intro hall
      rw [blur, (all_iff.1 hall).1 content mark rfl]
  | sequence children mark ih =>
      intro hall
      rw [blur, heach ih (all_iff.1 hall).2]
  | alternation children mark ih =>
      intro hall
      rw [blur, heach ih (all_iff.1 hall).2]

variable {vocabulary : Vocabulary} {direction : Direction} {text : List Char} {tree : Tree}

/-- In a tree that is read, nothing that is repeated holds an end of the input. -/
theorem edgeless_of_parse (h : parse vocabulary direction text = .ok tree) :
    tree.All Edgeless := by
  obtain ⟨items, hitems, hsettle⟩ := exists_items_of_parse h
  have hblur := blur_of_unsettled (kept_unsettled.of_parseText hitems)
  have hall := kept_unbounded.of_parseText hitems
  rw [← hblur, all_blur] at hall
  refine all_of_settle (fun item => ?_) (fun item => ?_) hsettle ?_
  · simp [Edgeless]
  · simp [Edgeless]
  · simp only [Unbounded, mark_blur] at hall
    exact hall

/-- In a tree that is read, every end of the input stands at its side. -/
theorem sided_of_parse (h : parse vocabulary direction text = .ok tree) :
    tree.EachLeaf Leaf.Sided true true := by
  obtain ⟨items, hitems, hsettle⟩ := exists_items_of_parse h
  obtain ⟨hedges, rfl⟩ := settle_eq_ok_iff.1 hsettle
  have hblur := blur_of_unsettled (kept_unsettled.of_parseText hitems)
  have hsided : ((ofItems items).resolve true true).EachLeaf Leaf.Sided true true :=
    (placed_resolve hblur).imp fun first last content hplaced =>
      ⟨hplaced.1, fun heq => (hplaced.2 heq).1⟩
  cases direction with
  | forward => exact hsided
  | backward =>
      rw [orient, reverse_of_resolved (hasBoundary_resolve_iff.2 hedges)]
      exact sided_flip hsided

/-! ## The machine for a tree -/

variable {first last : Bool}

theorem anchored_ofLabel {quantifier : Quantifier} {label : Label α}
    (hstart : label = .take .inputStart → first = true ∧ quantifier = .once)
    (hend : label = .take .inputEnd → last = true ∧ quantifier = .once) :
    (Assembly.ofLabel quantifier label).machine.Anchored first last := by
  refine Machine.anchored_repeated ?_ (Machine.framed_single label) quantifier fun hrepeated => ?_
  · exact Machine.anchored_single (fun heq => (hstart heq).1) (fun heq => (hend heq).1)
  · exact Machine.anchored_single (fun heq => absurd (hstart heq).2 hrepeated)
      (fun heq => absurd (hend heq).2 hrepeated)

variable [Token α] {table : MacroTable α} {direction : Direction}

theorem Leaf.anchor_of_label {content : Leaf} {label : Label α}
    (h : content.label table direction = .ok label) :
    (label = .take .inputStart → content = .inputStart) ∧
      (label = .take .inputEnd → content = .inputEnd) := by
  cases content with
  | literal text =>
      obtain ⟨atom, hatom, heq⟩ := bind_eq_ok_iff.1 h
      cases heq
      have hatom : atom ≠ .inputStart ∧ atom ≠ .inputEnd := by
        unfold literalAtom at hatom
        split at hatom
        · split at hatom <;> cases hatom
          exact ⟨nofun, nofun⟩
        · cases hatom
          exact ⟨nofun, nofun⟩
      exact ⟨fun heq => absurd (Label.take.inj heq) hatom.1,
        fun heq => absurd (Label.take.inj heq) hatom.2⟩
  | boundary => cases h
  | wildcard | epsilon =>
      cases h
      exact ⟨nofun, nofun⟩
  | inputStart =>
      cases h
      exact ⟨fun _ => rfl, nofun⟩
  | inputEnd =>
      cases h
      exact ⟨nofun, fun _ => rfl⟩

theorem anchoredInRow_of_parts {children : List Tree} {parts : List (Assembly α)}
    (hall : ∀ child ∈ children, child.All Edgeless)
    (h : List.Forall₂ (fun child part => ∃ own, assemble table direction child = .ok own ∧
      (child.All Edgeless → ∀ first last, child.EachLeaf Leaf.Sided first last →
        own.machine.Anchored first last) ∧ part = own.record child.isLeaf) children parts) :
    ∀ {first last : Bool}, EachLeafInRow Leaf.Sided first last children →
      Machine.AnchoredInRow first last (parts.map Assembly.machine) := by
  induction h with
  | nil => exact fun _ => trivial
  | @cons child part rest others hchild hrest ih =>
      intro first last hrow
      obtain ⟨own, -, hanchored, rfl⟩ := hchild
      rw [List.forall_mem_cons] at hall
      have hempty : (others.map Assembly.machine).isEmpty = rest.isEmpty := by
        rw [List.isEmpty_map]
        cases hrest <;> rfl
      rw [List.map_cons, Machine.AnchoredInRow, Assembly.machine_record, hempty]
      exact ⟨hanchored hall.1 first _ hrow.1, ih hall.2 hrow.2⟩

theorem anchored_of_parts {children : List Tree} {parts : List (Assembly α)} {first last : Bool}
    (hall : ∀ child ∈ children, child.All Edgeless)
    (h : List.Forall₂ (fun child part => ∃ own, assemble table direction child = .ok own ∧
      (child.All Edgeless → ∀ first last, child.EachLeaf Leaf.Sided first last →
        own.machine.Anchored first last) ∧ part = own.record child.isLeaf) children parts)
    (hbeside : EachLeafBeside Leaf.Sided first last children) :
    ∀ machine ∈ parts.map Assembly.machine,
      machine.Framed ∧ machine.Anchored first last := by
  rw [eachLeafBeside_iff] at hbeside
  exact forall_machine_of_parts h fun child hmem _ hown hanchored =>
    ⟨framed_of_assemble hown, hanchored (hall child hmem) first last (hbeside child hmem)⟩

/-- The machine for a tree is anchored as the ends of the input stand in the tree. -/
theorem anchored_of_assemble {tree : Tree} {assembly : Assembly α}
    (h : tree.assemble table direction = .ok assembly) :
    tree.All Edgeless → ∀ first last, tree.EachLeaf Leaf.Sided first last →
      assembly.machine.Anchored first last := by
  apply assemble_induction (motive := fun tree assembly =>
    tree.All Edgeless → ∀ first last, tree.EachLeaf Leaf.Sided first last →
      assembly.machine.Anchored first last) _ _ _ _ h
  · intro tree label _ hlabel _ first last _
    cases hchoices : tree.choices with
    | none =>
        rw [hchoices] at hlabel
        cases hlabel
    | some texts =>
        rw [hchoices] at hlabel
        obtain ⟨atoms, -, heq⟩ := bind_eq_ok_iff.1 hlabel
        cases heq
        exact anchored_ofLabel nofun nofun
  · intro content mark label _ hlabel hall first last hsided
    obtain ⟨hstart, hend⟩ := Leaf.anchor_of_label hlabel
    have honce : content = .inputStart ∨ content = .inputEnd → mark.quantifier = .once := by
      intro hcontent
      by_contra hrepeated
      have hedge : (Tree.leaf content mark).hasEdge = false := (all_iff.1 hall).1 hrepeated
      rcases hcontent with rfl | rfl <;> cases hedge
    apply anchored_ofLabel
    · exact fun heq => ⟨hsided.1 (hstart heq), honce (Or.inl (hstart heq))⟩
    · exact fun heq => ⟨hsided.2 (hend heq), honce (Or.inr (hend heq))⟩
  · intro children mark parts _ hparts hall first last hsided
    obtain ⟨hown, hchildren⟩ := all_iff.1 hall
    have hframed := framed_of_children hparts
    have hrow : ∀ {first last : Bool}, (Tree.sequence children mark).EachLeaf Leaf.Sided first
        last → (Machine.inSequence (parts.map Assembly.machine)).Anchored first last :=
      fun hsided => Machine.anchored_inSequence hframed
        (anchoredInRow_of_parts hchildren hparts hsided)
    exact Machine.anchored_repeated (hrow hsided) (Machine.framed_inSequence hframed) _
      fun hrepeated => hrow (sided_of_edgeless (hown hrepeated))
  · intro children mark parts _ hparts hall first last hsided
    obtain ⟨hown, hchildren⟩ := all_iff.1 hall
    have hframed := framed_of_children hparts
    have hbeside : ∀ {first last : Bool}, (Tree.alternation children mark).EachLeaf Leaf.Sided
        first last → (Machine.oneOf (parts.map Assembly.machine)).Anchored first last :=
      fun hsided => Machine.anchored_oneOf (anchored_of_parts hchildren hparts hsided)
    exact Machine.anchored_repeated (hbeside hsided) (Machine.framed_oneOf hframed) _
      fun hrepeated => hbeside (sided_of_edgeless (hown hrepeated))

end Tree

namespace Automaton

variable [Token α] {pattern : List Char} {direction : Direction}
variable {symbols : List (List Char)} {table : MacroTable α} {automaton : Automaton α}

/--
On every path that begins at the start of a machine for a pattern, only arcs that see nothing come
before an arc for the start of the input, and only such arcs come after an arc for its end.
-/
theorem anchors_at_edges (h : ofPattern pattern direction symbols table = .ok automaton)
    {before after : List (Arc α)} {arc : Arc α} {state : Nat}
    (hpath : automaton.machine.graph.Path automaton.machine.start (before ++ arc :: after) state) :
    (arc.label = .take .inputStart → ∀ earlier ∈ before,
      earlier.label = .epsilon) ∧
      (arc.label = .take .inputEnd → ∀ later ∈ after, later.label = .epsilon) := by
  obtain ⟨tree, hparse, htree⟩ := ofPattern_eq_ok_iff.1 h
  obtain ⟨assembly, hassembly, rfl⟩ := ofTree_eq_ok_iff.1 htree
  have hanchored := Tree.anchored_of_assemble hassembly (Tree.edgeless_of_parse hparse) true true
    (Tree.sided_of_parse hparse)
  constructor
  · intro hstart earlier hearlier
    obtain ⟨front, middle, rfl⟩ := List.append_of_mem hearlier
    rw [List.append_assoc, List.cons_append] at hpath
    obtain ⟨source, -, hsource, hpath⟩ := hpath.exists_between
    obtain ⟨next, hway, harc, -⟩ := hpath.exists_between
    by_contra hlabel
    exact (hanchored.apart source earlier next arc hsource hway.connects harc hlabel
      (by simp [hstart])).2 hstart
  · intro hend later hlater
    obtain ⟨middle, back, rfl⟩ := List.append_of_mem hlater
    obtain ⟨source, -, hsource, hpath⟩ := hpath.exists_between
    obtain ⟨next, hway, harc, -⟩ := hpath.exists_between
    by_contra hlabel
    exact (hanchored.apart source arc next later hsource hway.connects harc
      (by simp [hend]) hlabel).1 hend

/-- A branch that asks for the start of the input, and a later one that asks for its end. -/
theorem anchors_of_two_choices :
    let before : List (Arc Char) := [⟨.epsilon, 4⟩]
    let between : List (Arc Char) :=
      [⟨.epsilon, 1⟩, ⟨.epsilon, 6⟩, ⟨.epsilon, 8⟩, ⟨.take (.literal ['a']), 9⟩, ⟨.epsilon, 10⟩]
    let after : List (Arc Char) := [⟨.epsilon, 7⟩]
    ∃ automaton, ofPattern ['{', '#', 'a', ' ', 'b', '}', '{', 'c', ' ', '#', '}'] .backward []
        (∅ : MacroTable Char) = .ok automaton ∧
      automaton.machine.graph.Path automaton.machine.start
        (before ++ ⟨.take .inputStart, 5⟩ :: (between ++ ⟨.take .inputEnd, 11⟩ :: after))
        automaton.machine.accept ∧
      (∀ earlier ∈ before, earlier.label = .epsilon) ∧
      ∀ later ∈ after, later.label = .epsilon := by
  intro before between after
  have hmachine : (ofPattern ['{', '#', 'a', ' ', 'b', '}', '{', 'c', ' ', '#', '}'] .backward []
      (∅ : MacroTable Char)).map Automaton.machine = .ok ⟨⟨#[[⟨.epsilon, 2⟩, ⟨.epsilon, 4⟩],
        [⟨.epsilon, 6⟩], [⟨.take (.literal ['c']), 3⟩], [⟨.epsilon, 1⟩], [⟨.take .inputStart, 5⟩],
        [⟨.epsilon, 1⟩], [⟨.epsilon, 8⟩, ⟨.epsilon, 12⟩], [], [⟨.take (.literal ['a']), 9⟩],
        [⟨.epsilon, 10⟩], [⟨.take .inputEnd, 11⟩], [⟨.epsilon, 7⟩], [⟨.take (.literal ['b']), 13⟩],
        [⟨.epsilon, 7⟩]]⟩, 0, 7⟩ := by
    cbv
  obtain ⟨automaton, h, hown⟩ := map_eq_ok_iff.1 hmachine
  have hpath : automaton.machine.graph.Path automaton.machine.start
      (before ++ ⟨.take .inputStart, 5⟩ :: (between ++ ⟨.take .inputEnd, 11⟩ :: after))
      automaton.machine.accept := by
    rw [hown]
    iterate 9 apply Graph.Path.cons (by simp [Graph.arcsFrom])
    exact Graph.Path.nil 7
  have hpath2 : automaton.machine.graph.Path automaton.machine.start
      ((before ++ ⟨.take .inputStart, 5⟩ :: between) ++ ⟨.take .inputEnd, 11⟩ :: after)
      automaton.machine.accept := hpath
  exact ⟨automaton, h, hpath, (anchors_at_edges h hpath).1 rfl, (anchors_at_edges h hpath2).2 rfl⟩

end Automaton

end Motif
