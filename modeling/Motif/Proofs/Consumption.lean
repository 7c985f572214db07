import Mathlib.Data.List.DropRight
import Motif.Proofs.Division
import Motif.Proofs.Items
import Motif.Proofs.Lexing

/-!
# What reading consumes

Reading a level takes its text up from the front: blanks and the sources of the lexemes, each of at
least one character, up to the end or to the first fault. The text of a group is shorter than the
text around it, so no more levels are read inside one another than there are characters.
-/

namespace Motif

namespace Lexeme

variable {symbols : List (List Char)}

/--
Reading the text gives the lexemes and stops in front of the rest: at the end of the text, or with a
fault at a character that is no blank.
-/
inductive Scans (symbols : List (List Char)) :
    List Char → List Lexeme → Option PatternFault → List Char → Prop
  | done {text : List Char} : readFirst symbols text = .ok none → Scans symbols text [] none []
  | failed {text : List Char} {fault : PatternFault} :
      readFirst symbols text = .error fault →
        Scans symbols text [] (some fault) (Text.skipBlank text)
  | next {text after rest : List Char} {lexeme : Lexeme} {lexemes : List Lexeme}
      {fault? : Option PatternFault} :
      readFirst symbols text = .ok (some (lexeme, after)) →
        Scans symbols after lexemes fault? rest →
          Scans symbols text (lexeme :: lexemes) fault? rest

theorem readFirst_skipBlank (symbols : List (List Char)) (text : List Char) :
    readFirst symbols (Text.skipBlank text) = readFirst symbols text := by
  have hskip : Text.skipBlank (Text.skipBlank text) = Text.skipBlank text :=
    List.dropWhile_idempotent Text.isBlank text
  rw [readFirst, readFirst, hskip]

theorem exists_scans (hsymbols : ∀ symbol ∈ symbols, symbol ≠ [])
    (text : List Char) :
    ∃ lexemes fault? rest, Scans symbols text lexemes fault? rest := by
  induction hlength : text.length using Nat.strong_induction_on generalizing text with
  | _ length ih =>
      cases hfirst : readFirst symbols text with
      | error fault => exact ⟨[], some fault, _, .failed hfirst⟩
      | ok found =>
          cases found with
          | none => exact ⟨[], none, [], .done hfirst⟩
          | some found =>
              obtain ⟨lexeme, after⟩ := found
              have hshorter := (length_lt_of_readFirst hsymbols hfirst).1
              obtain ⟨lexemes, fault?, rest, hafter⟩ :=
                ih after.length (hlength ▸ hshorter) after rfl
              exact ⟨lexeme :: lexemes, fault?, rest, .next hfirst hafter⟩

namespace Scans

variable {text rest : List Char} {lexemes : List Lexeme} {fault? : Option PatternFault}

/-- What is scanned is what is read within any limit that leaves room for a fault. -/
theorem readUpTo_eq (h : Scans symbols text lexemes fault? rest) :
    ∀ limit, lexemes.length < limit →
      readUpTo symbols false limit text = lexemes.map .ok ++ fault?.toList.map .error := by
  induction h with
  | done hfirst =>
      intro limit hlimit
      obtain ⟨limit, rfl⟩ := Nat.exists_eq_add_of_lt hlimit
      simp [readUpTo, hfirst]
  | failed hfirst =>
      intro limit hlimit
      obtain ⟨limit, rfl⟩ := Nat.exists_eq_add_of_lt hlimit
      simp [readUpTo, hfirst]
  | @next text after rest lexeme lexemes fault? hfirst _ ih =>
      intro limit hlimit
      cases limit with
      | zero => exact absurd hlimit (Nat.not_lt_zero _)
      | succ limit =>
          have hlater := ih limit (Nat.lt_of_succ_lt_succ hlimit)
          simp only [readUpTo, hfirst, hlater]
          rfl

theorem exists_spaced (h : Scans symbols text lexemes fault? rest) :
    ∃ consumed before gaps, text = consumed ++ rest ∧
      Text.Spaced consumed (lexemes.map source) before gaps := by
  induction h with
  | @done text hfirst =>
      have hblank := readFirst_eq_none_iff.1 hfirst
      exact ⟨text, text, [], (List.append_nil text).symm, .nil hblank⟩
  | @failed text fault hfirst =>
      obtain ⟨gap, htext, hgap⟩ := Text.exists_blank_append_skipBlank text
      exact ⟨gap, gap, [], htext, .nil hgap⟩
  | @next text after rest lexeme lexemes fault? hfirst _ ih =>
      obtain ⟨consumed, before, gaps, hafter, hspaced⟩ := ih
      obtain ⟨gap, c, tail, hgap, htext, hsource, -, -⟩ := readFirst_eq_some_iff.1 hfirst
      refine ⟨_, gap, before :: gaps, ?_, hspaced.cons hgap⟩
      rw [htext, hsource, hafter, List.append_assoc, List.append_assoc]

theorem stops (h : Scans symbols text lexemes fault? rest) :
    (fault? = none → rest = []) ∧
      ∀ fault, fault? = some fault → readFirst symbols rest = .error fault ∧
        ∀ c, rest.head? = some c → Text.isBlank c = false := by
  induction h with
  | done _ => simp
  | @failed text fault hfirst =>
      refine ⟨nofun, fun other heq => ?_⟩
      cases heq
      refine ⟨by rw [readFirst_skipBlank, hfirst], fun c hc => ?_⟩
      obtain ⟨tail, htail⟩ := List.head?_eq_some_iff.1 hc
      exact Text.isBlank_head_skipBlank htail
  | next _ _ ih => exact ih

theorem leads (h : Scans symbols text lexemes fault? rest) :
    ∀ lexeme ∈ lexemes, ∃ after, lexeme.Leads symbols after := by
  induction h with
  | done _ | failed _ => simp
  | next hfirst _ ih =>
      obtain ⟨-, -, -, -, -, -, -, hleads⟩ := readFirst_eq_some_iff.1 hfirst
      exact List.forall_mem_cons.2 ⟨⟨_, hleads⟩, ih⟩

end Scans

theorem Leads.balanced_body {bracket : Bracket} {body after : List Char}
    (h : (group bracket body).Leads symbols after) : Balanced body := by
  rcases h.declared_or_bare with ⟨text, -, heq⟩ | hbare
  · cases heq
  · exact hbare

/--
All that is read of a text up to its end or the first fault: the lexemes, each with a text of its
own and every group with a balanced one that is shorter than the whole; and the part of the text
that consists of them and of blanks, which is the whole text if there is no fault.
-/
structure Consumes (symbols : List (List Char)) (text : List Char) (lexemes : List Lexeme)
    (fault? : Option PatternFault) (consumed rest : List Char) : Prop where
  readUpTo_eq : ∀ limit, text.length < limit →
    readUpTo symbols false limit text = lexemes.map .ok ++ fault?.toList.map .error
  text_eq : text = consumed ++ rest
  spaced : ∃ before gaps, Text.Spaced consumed (lexemes.map source) before gaps
  source_ne_nil : ∀ lexeme ∈ lexemes, lexeme.source ≠ []
  length_le : lexemes.length ≤ consumed.length
  rest_eq_nil : fault? = none → rest = []
  fault_at_rest : ∀ fault, fault? = some fault → readFirst symbols rest = .error fault ∧
    ∀ c, rest.head? = some c → Text.isBlank c = false
  group : ∀ bracket body, Lexeme.group bracket body ∈ lexemes →
    Balanced body ∧ body.length < text.length

theorem exists_consumes (hsymbols : ∀ symbol ∈ symbols, symbol ≠ [])
    (text : List Char) :
    ∃ lexemes fault? consumed rest, Consumes symbols text lexemes fault? consumed rest := by
  obtain ⟨lexemes, fault?, rest, hscans⟩ := exists_scans hsymbols text
  obtain ⟨consumed, before, gaps, htext, hspaced⟩ := hscans.exists_spaced
  obtain ⟨hend, hfault⟩ := hscans.stops
  have hsource : ∀ lexeme ∈ lexemes, lexeme.source ≠ [] := by
    intro lexeme hmem
    obtain ⟨after, hleads⟩ := hscans.leads lexeme hmem
    exact hleads.source_ne_nil hsymbols
  have hlength : lexemes.length ≤ consumed.length := by
    simpa using hspaced.length_le (by simpa using hsource)
  have hconsumed : consumed.length ≤ text.length := by
    rw [htext, List.length_append]
    exact Nat.le_add_right _ _
  refine ⟨lexemes, fault?, consumed, rest, fun limit hlimit => ?_, htext, ⟨before, gaps, hspaced⟩,
    hsource, hlength, hend, hfault, fun bracket body hmem => ?_⟩
  · exact hscans.readUpTo_eq limit (by omega)
  · obtain ⟨after, hleads⟩ := hscans.leads _ hmem
    have hwhole := hspaced.length_le_of_mem (List.mem_map_of_mem hmem)
    rw [source, Tree.bracket] at hwhole
    simp only [List.length_cons, List.length_append, List.length_nil] at hwhole
    exact ⟨hleads.balanced_body, by omega⟩

end Lexeme

namespace Tree

/-! ## Levels inside levels -/

variable {β γ : Type} {vocabulary : Vocabulary}

/-- The outcome of a computation that was not given up. -/
def reached (outcome : Except PatternFault β) : ExceptT PatternFault Option β :=
  ExceptT.mk (some outcome)

theorem reached_bind (first : Except PatternFault β) (second : β → Except PatternFault γ) :
    reached (first >>= second) = reached first >>= fun value => reached (second value) := by
  cases first <;> rfl

/-- The item for the text between brackets, with `parse` for the levels in it. -/
def groupWithin (parse : List Char → ExceptT PatternFault Option (List Tree))
    (bracket : Bracket) (body : List Char) : ExceptT PatternFault Option Tree :=
  match bracket with
  | .round => do
      let children ← parse body
      if children.isEmpty then throw (.emptyGroup .round) else return .sequence children .plain
  | .curly =>
      if (branches body).isEmpty then
        throw (.emptyGroup .curly)
      else do
        let children ← (branches body).mapM fun branch => ofBranch <$> parse branch
        return .alternation children .plain

/-- The level after one more lexeme or fault, with `parse` for the levels in a group. -/
def absorbWithin (vocabulary : Vocabulary)
    (parse : List Char → ExceptT PatternFault Option (List Tree)) (level : Level) :
    Except PatternFault Lexeme → ExceptT PatternFault Option Level
  | .error fault => throw fault
  | .ok (.group bracket body) => do
      let item ← groupWithin parse bracket body
      reached (level.add item)
  | .ok lexeme => reached (absorb vocabulary level lexeme)

/--
The items of a text, given up where more than `depth` levels are to be read one inside another.
-/
def parseWithin (vocabulary : Vocabulary) :
    (depth : Nat) → List Char → ExceptT PatternFault Option (List Tree)
  | 0, _ => ExceptT.mk none
  | depth + 1, text => do
      let found := Lexeme.readUpTo vocabulary.symbols false (text.length + 1) text
      let last ← found.foldlM (absorbWithin vocabulary (parseWithin vocabulary depth)) .start
      reached last.close

section Within

variable {parse : List Char → ExceptT PatternFault Option (List Tree)}

theorem mapM_ofBranch {texts : List (List Char)}
    (h : ∀ text ∈ texts, parse text = reached (parseLevel vocabulary .start text)) :
    (texts.mapM fun text => ofBranch <$> parse text) =
      reached (parseBranches vocabulary texts) := by
  induction texts with
  | nil =>
      rw [parseBranches]
      rfl
  | cons text rest ih =>
      rw [List.forall_mem_cons] at h
      rw [List.mapM_cons, h.1, ih h.2, parseBranches]
      cases parseLevel vocabulary .start text with
      | error fault => rfl
      | ok items => cases parseBranches vocabulary rest <;> rfl

theorem groupWithin_eq {bracket : Bracket} {body : List Char}
    (h : ∀ text, text.length ≤ body.length →
      parse text = reached (parseLevel vocabulary .start text)) :
    groupWithin parse bracket body = reached (parseGroup vocabulary bracket body) := by
  cases bracket with
  | round =>
      rw [groupWithin, parseGroup, h body (Nat.le_refl _)]
      cases parseLevel vocabulary .start body with
      | error fault => rfl
      | ok children => cases children <;> rfl
  | curly =>
      have hbranches : ((branches body).mapM fun branch => ofBranch <$> parse branch) =
          reached (parseBranches vocabulary (branches body)) := by
        refine mapM_ofBranch fun text htext => h text ?_
        exact Nat.le_trans (length_le_totalLength htext) (totalLength_branches_le body)
      rw [groupWithin, parseGroup]
      split
      · rfl
      · rw [hbranches]
        cases parseBranches vocabulary (branches body) <;> rfl

theorem absorbWithin_eq {level : Level} {lexeme : Lexeme}
    (h : ∀ text, text.length < lexeme.unread →
      parse text = reached (parseLevel vocabulary .start text)) :
    absorbWithin vocabulary parse level (.ok lexeme) =
      reached (absorb vocabulary level lexeme) := by
  cases lexeme with
  | group bracket body =>
      have hgroup : groupWithin parse bracket body =
          reached (parseGroup vocabulary bracket body) :=
        groupWithin_eq fun text htext => h text (Nat.lt_succ_of_le htext)
      rw [absorbWithin, hgroup, absorb, reached_bind]
  | symbol | wildcard | boundary | negation | quantifier => rfl

theorem foldlM_absorbWithin {bound : Nat}
    (h : ∀ text, text.length < bound →
      parse text = reached (parseLevel vocabulary .start text)) (limit : Nat) :
    ∀ {text : List Char} {level : Level}, text.length < limit → text.length ≤ bound →
      ((Lexeme.readUpTo vocabulary.symbols false limit text).foldlM
          (absorbWithin vocabulary parse) level >>= fun last => reached last.close) =
        reached (parseLevel vocabulary level text) := by
  induction limit with
  | zero => exact fun hlimit => absurd hlimit (Nat.not_lt_zero _)
  | succ limit ih =>
      intro text level hlimit hbound
      rw [Lexeme.readUpTo.eq_def]
      dsimp only
      cases hfirst : Lexeme.readFirst vocabulary.symbols text with
      | error fault =>
          rw [parseLevel_of_error hfirst]
          rfl
      | ok found =>
          cases found with
          | none =>
              rw [parseLevel_of_none hfirst]
              rfl
          | some found =>
              obtain ⟨lexeme, rest⟩ := found
              have hshorter := Lexeme.length_lt_of_readFirst vocabulary.ne_nil_of_mem hfirst
              have habsorb : absorbWithin vocabulary parse level (.ok lexeme) =
                  reached (absorb vocabulary level lexeme) :=
                absorbWithin_eq fun inner hinner => h inner (by omega)
              rw [parseLevel_of_some hfirst, reached_bind]
              dsimp only
              rw [List.foldlM_cons, habsorb, bind_assoc]
              exact bind_congr fun next => ih (by omega) (by omega)

end Within

/-- Where as many levels are allowed as a text has characters and one more, none is given up. -/
theorem parseWithin_eq (vocabulary : Vocabulary) (depth : Nat) :
    ∀ text : List Char, text.length < depth →
      parseWithin vocabulary depth text = reached (parseLevel vocabulary .start text) := by
  induction depth with
  | zero => exact fun text hdepth => absurd hdepth (Nat.not_lt_zero _)
  | succ depth ih =>
      intro text hdepth
      have hinner : ∀ inner : List Char, inner.length < text.length →
          parseWithin vocabulary depth inner = reached (parseLevel vocabulary .start inner) :=
        fun inner hshorter => ih inner (by omega)
      rw [parseWithin]
      exact foldlM_absorbWithin hinner (text.length + 1) (Nat.lt_succ_self _) (Nat.le_refl _)

/--
If no symbol is empty, reading takes up a text without loss, at least one character for each lexeme,
and comes to its end or to a fault. Hence the levels of a pattern are read one inside another to no
greater depth than it has characters, whatever vocabulary it is read with.
-/
theorem reading_consumes {symbols : List (List Char)}
    (hsymbols : ∀ symbol ∈ symbols, symbol ≠ []) (text : List Char) :
    (∃ lexemes fault? consumed rest,
      Lexeme.Consumes symbols text lexemes fault? consumed rest) ∧
    ∀ (vocabulary : Vocabulary) (depth : Nat) (pattern : List Char),
      pattern.length < depth →
        parseWithin vocabulary depth pattern = reached (parseLevel vocabulary .start pattern) :=
  ⟨Lexeme.exists_consumes hsymbols text, parseWithin_eq⟩

/-- A symbol of two characters, a group with a symbol inside, and a bracket that closes nothing. -/
theorem reading_consumes_up_to_fault :
    let symbols := [['t', 'ʃ'], ['b']]
    let text := [' ', 't', 'ʃ', ' ', '(', 'a', '{', 'b', ' ', '}', ')', '*', ' ', '}', 'a']
    (∀ symbol ∈ symbols, symbol ≠ []) ∧
    (∃ lexemes fault? consumed rest,
      Lexeme.Consumes symbols text lexemes fault? consumed rest) ∧
    text.length < 16 ∧
    parseWithin (Vocabulary.ofList symbols) 16 text =
      reached (parseLevel (Vocabulary.ofList symbols) .start text) := by
  intro symbols text
  have hsymbols : ∀ symbol ∈ symbols, symbol ≠ [] := by decide
  have hlength : text.length < 16 := by decide
  obtain ⟨hconsumes, hdepth⟩ := reading_consumes hsymbols text
  exact ⟨hsymbols, hconsumes, hlength, hdepth (Vocabulary.ofList symbols) 16 text hlength⟩

end Tree

end Motif
