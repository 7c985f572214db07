import Mathlib.Data.List.Permutation
import Motif.Proofs.Meaning
import Motif.Proofs.Range

/-!
# What the records say

For a backward automaton the program reverses each input, and counts every index it finds back from
the other end. What its records then say is what the automaton finds in the input as it is written:
the starts of the matches up to an index in place of the ends of the matches from its mirror image.
-/

namespace Motif

theorem pairwise_foundUpTo (length : Nat) (found : Nat → IndexSet) :
    (foundUpTo length found).Pairwise fun hit next => hit.1 < next.1 := by
  refine List.Pairwise.filterMap _ ?_ List.pairwise_lt_range
  intro index next hlt hit hhit nextHit hnext
  rw [Option.ite_none_left_eq_some, Option.some.injEq] at hhit hnext
  rw [← hhit.2, ← hnext.2]
  exact hlt

theorem filterMap_upTo_congr {β : Type} {length : Nat} {make other : Nat → Option β}
    (h : ∀ index, index ≤ length → make index = other index) :
    (List.range (length + 1)).filterMap make = (List.range (length + 1)).filterMap other :=
  List.filterMap_congr fun index hindex => h index (Nat.lt_succ_iff.1 (List.mem_range.1 hindex))

theorem foundUpTo_congr {length : Nat} {found other : Nat → IndexSet}
    (h : ∀ index, index ≤ length → found index = other index) :
    foundUpTo length found = foundUpTo length other := by
  apply filterMap_upTo_congr
  intro index hindex
  rw [h index hindex]

theorem reverse_range_succ (length : Nat) :
    (List.range (length + 1)).reverse = (List.range (length + 1)).map (length - ·) := by
  rw [List.range_eq_range', List.reverse_range', ← List.range_eq_range']
  exact List.map_congr_left fun index _ => by omega

/-- Counted from the other end, what is found comes in the opposite order. -/
theorem map_reverse_foundUpTo (length : Nat) (found : Nat → IndexSet)
    {shown : IndexSet → IndexSet} (hshown : ∀ set, (shown set).isEmpty = set.isEmpty) :
    (foundUpTo length found).reverse.map (fun hit => (length - hit.1, shown hit.2)) =
      foundUpTo length fun index => shown (found (length - index)) := by
  -- The range turned around is the range counted back, so it is enough to compare each entry.
  rw [foundUpTo, ← List.filterMap_reverse, reverse_range_succ, List.filterMap_map,
    List.map_filterMap]
  apply filterMap_upTo_congr
  intro index hindex
  simp only [Function.comp_apply, hshown]
  split
  · rfl
  · rw [Option.map_some, Nat.sub_sub_self hindex]

theorem Text.joinWith_eq_intercalate (separator : List Char) (texts : List (List Char)) :
    joinWith separator texts = separator.intercalate texts := by
  induction texts with
  | nil => rfl
  | cons text rest ih =>
      cases rest with
      | nil => simp [joinWith]
      | cons next rest => rw [joinWith, ih, List.intercalate_cons_cons, List.append_assoc]

variable {α : Type} [DecidableEq α] [Token α]

namespace Automaton

/--
Every index at which a match ends, in ascending order, with the indices from which it can start. The
input is given as it is written in either direction.
-/
def hitsTo (automaton : Automaton α) (input : Array α) : List (Nat × IndexSet) :=
  foundUpTo input.size (automaton.startsTo input)

theorem mem_hitsTo_iff {automaton : Automaton α} {input : Array α} {stop : Nat}
    {starts : IndexSet} :
    (stop, starts) ∈ automaton.hitsTo input ↔
      starts = automaton.startsTo input stop ∧ starts ≠ ∅ := by
  rw [hitsTo, mem_foundUpTo, ← Bool.not_eq_true, ne_eq, IndexSet.eq_empty_iff,
    IndexSet.isEmpty_iff]
  constructor
  · intro h
    exact h.2
  · intro h
    refine ⟨?_, h⟩
    by_contra hstop
    refine h.2 fun start hstart => ?_
    rw [h.1, startsTo, if_pos (by omega)] at hstart
    exact IndexSet.not_mem_empty start hstart

omit [DecidableEq α] in
theorem direction_of_ofPattern {pattern : List Char} {direction : Direction}
    {symbols : List (List Char)} {table : MacroTable α} {automaton : Automaton α}
    (h : ofPattern pattern direction symbols table = .ok automaton) :
    automaton.direction = direction := by
  obtain ⟨tree, -, htree⟩ := ofPattern_eq_ok_iff.1 h
  exact direction_of_ofTree htree

end Automaton

namespace CommandLine

/-! ## What a record has to say -/

/-- A number in decimal digits. -/
def decimal (number : Nat) : List Char :=
  (toString number).toList

/-- Numbers in curly brackets, with commas between them. -/
def braced (numbers : List Nat) : List Char :=
  ['{'] ++ [','].intercalate (numbers.map decimal) ++ ['}']

/-- Hits with blanks between them, each as its index, a colon and what belongs to it. -/
def listed (hits : List (Nat × IndexSet)) : List Char :=
  [' '].intercalate (hits.map fun hit => decimal hit.1 ++ [':'] ++ braced hit.2.toList)

def verdict (full : Prop) [Decidable full] : List Char :=
  if full then "match".toList else "no match".toList

/-- The result for an input from what the automaton finds in it as it is written. -/
def resultAsWritten (automaton : Automaton α) (flags : List Flag) (input : Array α) : List Char :=
  if Flag.search ∈ flags then
    if Flag.backward ∈ flags then listed (automaton.hitsTo input)
    else listed (automaton.hits input)
  else if Flag.full ∈ flags then
    if Flag.backward ∈ flags then verdict (0 ∈ automaton.startsTo input input.size)
    else verdict (input.size ∈ automaton.endsFrom input 0)
  else
    if Flag.backward ∈ flags then braced (automaton.startsTo input input.size).toList
    else braced (automaton.endsFrom input 0).toList

/-- The result if nothing is found. -/
def nothingFound (flags : List Flag) : List Char :=
  if Flag.search ∈ flags then [] else if Flag.full ∈ flags then "no match".toList else "{}".toList

/-- The answer with this result, which is a match unless it is the one that says otherwise. -/
def Answer.ofResult (nothing result : List Char) : Answer :=
  ⟨result, result ≠ nothing⟩

theorem decimal_eq : decimal = Nat.toDigits 10 :=
  funext fun _ => Nat.toList_repr

theorem braced_toList (indices : IndexSet) :
    braced indices.toList = '{' :: (listIndices indices ++ ['}']) := by
  rw [braced, listIndices, Text.joinWith_eq_intercalate, decimal_eq]
  rfl

theorem listed_eq (hits : List (Nat × IndexSet)) :
    listed hits =
      Text.joinWith [' '] (hits.map fun hit => renderEntry (hit.1, listIndices hit.2)) := by
  simp [listed, Text.joinWith_eq_intercalate, renderEntry, braced_toList, decimal_eq]

theorem intercalate_cons_ne_nil (separator : List Char) {text : List Char} (h : text ≠ [])
    (rest : List (List Char)) : separator.intercalate (text :: rest) ≠ [] := by
  cases rest with
  | nil => simpa using h
  | cons next rest => simp [List.intercalate_cons_cons, h]

theorem ofResult_eq {nothing result text : List Char} {matched : Bool}
    (htext : result = text) (hmatched : result = nothing ↔ matched = false) :
    Answer.ofResult nothing result = ⟨text, matched⟩ := by
  have hfound : decide (result ≠ nothing) = matched := by
    rw [Bool.eq_iff_iff, decide_eq_true_iff, ne_eq, hmatched, Bool.not_eq_false]
  rw [Answer.ofResult, hfound, htext]

theorem ofResult_braced (indices : IndexSet) :
    Answer.ofResult "{}".toList (braced indices.toList) =
      ⟨'{' :: (listIndices indices ++ ['}']), !indices.isEmpty⟩ := by
  refine ofResult_eq (braced_toList indices) ?_
  rw [IndexSet.isEmpty]
  cases indices.toList with
  | nil => simp [braced]
  | cons index rest =>
      have hfirst : decimal index ≠ [] := by simp [decimal_eq]
      have hjoined := intercalate_cons_ne_nil [','] hfirst (rest.map decimal)
      simp [braced, hjoined]

theorem ofResult_listed (hits : List (Nat × IndexSet)) :
    Answer.ofResult [] (listed hits) =
      ⟨Text.joinWith [' '] ((hits.map fun hit => (hit.1, listIndices hit.2)).map renderEntry),
        !hits.isEmpty⟩ := by
  refine ofResult_eq ?_ ?_
  · rw [listed_eq, List.map_map]
    rfl
  · cases hits with
    | nil => exact iff_of_true rfl rfl
    | cons hit rest =>
        have hfirst : decimal hit.1 ++ [':'] ++ braced hit.2.toList ≠ [] := by simp
        have hjoined := intercalate_cons_ne_nil [' '] hfirst
          (rest.map fun hit => decimal hit.1 ++ [':'] ++ braced hit.2.toList)
        exact iff_of_false (by simpa [listed] using hjoined) (by simp)

theorem ofResult_verdict {full : Prop} [Decidable full] {found : Bool} (h : found = decide full) :
    Answer.ofResult "no match".toList (verdict full) =
      ⟨if found then "match".toList else "no match".toList, found⟩ := by
  subst h
  by_cases hfull : full
  · exact ofResult_eq (by simp [verdict, hfull]) (by simp [verdict, hfull])
  · exact ofResult_eq (by simp [verdict, hfull]) (by simp [verdict, hfull])

/-! ## Sorting the entries -/

theorem entryLe_iff {first second : Nat × List Char} :
    entryLe first second = true ↔
      first.1 < second.1 ∨ first.1 = second.1 ∧ second.2.lex first.2 = false := by
  simp [entryLe]

theorem entryLe_trans (first second third : Nat × List Char)
    (h : entryLe first second = true) (h' : entryLe second third = true) :
    entryLe first third = true := by
  rw [entryLe_iff, List.lex_eq_false_iff_ge] at *
  rcases h with hlt | ⟨heq, hle⟩
  · exact Or.inl (by omega)
  · rcases h' with hlt' | ⟨heq', hle'⟩
    · exact Or.inl (by omega)
    · exact Or.inr ⟨heq.trans heq', List.le_trans hle hle'⟩

theorem entryLe_total (first second : Nat × List Char) :
    (entryLe first second || entryLe second first) = true := by
  rw [Bool.or_eq_true, entryLe_iff, entryLe_iff, List.lex_eq_false_iff_ge,
    List.lex_eq_false_iff_ge]
  rcases Nat.lt_trichotomy first.1 second.1 with hlt | heq | hgt
  · exact Or.inl (Or.inl hlt)
  · exact (List.le_total first.2 second.2).imp (fun hle => Or.inr ⟨heq, hle⟩)
      fun hle => Or.inr ⟨heq.symm, hle⟩
  · exact Or.inr (Or.inl hgt)

theorem entryLe_antisymm {first second : Nat × List Char} (h : entryLe first second = true)
    (h' : entryLe second first = true) : first = second := by
  rw [entryLe_iff, List.lex_eq_false_iff_ge] at h h'
  rcases h with hlt | ⟨heq, hle⟩
  · omega
  · rcases h' with hlt' | ⟨-, hle'⟩
    · omega
    · exact Prod.ext heq (List.le_antisymm hle hle')

/-- Entries that ascend by their starts are what sorting makes of them in any order. -/
theorem mergeSort_entries {entries ascending : List (Nat × List Char)}
    (hsame : entries.Perm ascending)
    (hascending : ascending.Pairwise fun entry next => entry.1 < next.1) :
    entries.mergeSort entryLe = ascending := by
  have hsorted : (entries.mergeSort entryLe).Pairwise fun entry next => entryLe entry next :=
    List.pairwise_mergeSort entryLe_trans entryLe_total entries
  have hordered : ascending.Pairwise fun entry next => entryLe entry next :=
    hascending.imp fun hlt => entryLe_iff.2 (Or.inl hlt)
  exact ((List.mergeSort_perm entries entryLe).trans hsame).eq_of_pairwise
    (fun _ _ _ _ => entryLe_antisymm) hsorted hordered

/-! ## Counting back -/

theorem writtenSet_forward (length : Nat) (indices : IndexSet) :
    writtenSet .forward length indices = indices := by
  ext index
  simp [writtenSet, writtenIndex]

theorem isEmpty_writtenSet (direction : Direction) (length : Nat) (indices : IndexSet) :
    (writtenSet direction length indices).isEmpty = indices.isEmpty := by
  rw [Bool.eq_iff_iff, IndexSet.isEmpty_iff, IndexSet.isEmpty_iff]
  simp [writtenSet]

/-- The ends that a backward automaton finds in the reversed input are starts in the input. -/
theorem writtenSet_backward {automaton : Automaton α} (h : automaton.direction = .backward)
    {written : Array α} {stop : Nat} (hstop : stop ≤ written.size) :
    writtenSet .backward written.size (automaton.endsFrom written.reverse (written.size - stop)) =
      automaton.startsTo written stop := by
  rw [Automaton.startsTo, if_neg (by omega), h]
  rfl

theorem mergeSort_foundUpTo {length : Nat} {found : Nat → IndexSet}
    {entries : List (Nat × List Char)}
    (h : entries.Perm ((foundUpTo length found).map fun hit => (hit.1, listIndices hit.2))) :
    entries.mergeSort entryLe =
      (foundUpTo length found).map fun hit => (hit.1, listIndices hit.2) :=
  mergeSort_entries h (List.pairwise_map.2 (pairwise_foundUpTo length found))

theorem entries_of_forward (automaton : Automaton α) (written : Array α) :
    let entries := (automaton.hits written).map (entryAsWritten .forward written.size)
    entries.mergeSort entryLe =
      (automaton.hits written).map fun hit => (hit.1, listIndices hit.2) := by
  have hentry : ∀ hit : Nat × IndexSet,
      entryAsWritten .forward written.size hit = (hit.1, listIndices hit.2) := by
    intro hit
    rw [entryAsWritten, writtenSet_forward]
    rfl
  apply mergeSort_foundUpTo
  rw [Automaton.hits_eq_foundUpTo, List.map_congr_left fun hit _ => hentry hit]

/-- What is found up to each index is the hits in the mirror image, the last one first. -/
theorem hitsTo_of_backward {automaton : Automaton α} (h : automaton.direction = .backward)
    (written : Array α) :
    automaton.hitsTo written = (automaton.hits written.reverse).reverse.map fun hit =>
      (written.size - hit.1, writtenSet .backward written.size hit.2) := by
  rw [Automaton.hits_eq_foundUpTo, Array.size_reverse,
    map_reverse_foundUpTo written.size _ (isEmpty_writtenSet .backward written.size)]
  exact foundUpTo_congr fun stop hstop => (writtenSet_backward h hstop).symm

theorem entries_of_backward {automaton : Automaton α} (h : automaton.direction = .backward)
    (written : Array α) :
    let entries := (automaton.hits written.reverse).map (entryAsWritten .backward written.size)
    entries.mergeSort entryLe =
      (automaton.hitsTo written).map fun hit => (hit.1, listIndices hit.2) := by
  apply mergeSort_foundUpTo
  rw [← Automaton.hitsTo, hitsTo_of_backward h, List.map_map]
  exact ((List.reverse_perm _).map _).symm

theorem matchesWhole_of_backward {automaton : Automaton α} (h : automaton.direction = .backward)
    (written : Array α) :
    automaton.matchesWhole written.reverse =
      decide (0 ∈ automaton.startsTo written written.size) := by
  rw [Automaton.matchesWhole, decide_eq_decide, Automaton.mem_startsTo_of_backward h,
    Array.size_reverse, Nat.sub_zero, Nat.sub_self]
  simp

theorem answer_eq {automaton : Automaton α} {options : Options}
    (hdirection : automaton.direction = options.direction) (written : Array α) :
    answer automaton options.question written =
      .ofResult (nothingFound options.flags) (resultAsWritten automaton options.flags written) := by
  unfold Options.direction at hdirection
  unfold answer Options.question nothingFound resultAsWritten
  by_cases hbackward : Flag.backward ∈ options.flags
  · rw [if_pos hbackward] at hdirection
    by_cases hsearch : Flag.search ∈ options.flags
    · simp only [if_pos hbackward, if_pos hsearch]
      rw [ofResult_listed, ← entries_of_backward hdirection, hitsTo_of_backward hdirection,
        List.isEmpty_map, List.isEmpty_reverse, hdirection]
      rfl
    · by_cases hfull : Flag.full ∈ options.flags
      · simp only [if_pos hbackward, if_neg hsearch, if_pos hfull]
        rw [ofResult_verdict (matchesWhole_of_backward hdirection written), hdirection]
        rfl
      · have hset := writtenSet_backward hdirection (Nat.le_refl written.size)
        rw [Nat.sub_self] at hset
        simp only [if_pos hbackward, if_neg hsearch, if_neg hfull]
        rw [ofResult_braced, ← hset, isEmpty_writtenSet, hdirection]
        rfl
  · rw [if_neg hbackward] at hdirection
    by_cases hsearch : Flag.search ∈ options.flags
    · simp only [if_neg hbackward, if_pos hsearch]
      rw [ofResult_listed, ← entries_of_forward, hdirection]
      rfl
    · by_cases hfull : Flag.full ∈ options.flags
      · simp only [if_neg hbackward, if_neg hsearch, if_pos hfull]
        rw [ofResult_verdict rfl, hdirection]
        rfl
      · simp only [if_neg hbackward, if_neg hsearch, if_neg hfull]
        rw [ofResult_braced, hdirection, writtenSet_forward]
        rfl

theorem answerAll_eq {automaton : Automaton α} {options : Options}
    (hdirection : automaton.direction = options.direction) (lines : List (List Char)) :
    let result := fun line : List Char =>
      resultAsWritten automaton options.flags (Token.ofLiteral line : List α).toArray
    answerAll automaton options.question lines =
      (lines.flatMap fun line =>
        Token.render (Token.ofLiteral line : List α) ++ ['\t'] ++ result line ++ ['\n'],
        lines.any fun line => result line ≠ nothingFound options.flags) := by
  intro result
  induction lines with
  | nil => rfl
  | cons line rest ih =>
      rw [answerAll, ih, answer_eq hdirection]
      simp [renderRecord, result, Answer.ofResult]

/--
The program writes one record for each line, in the order of the lines, and nothing else: the line
as its tokens are written, a tab, the result and a line feed. The result is what the automaton finds
in the line as it is written: read from right to left, the starts of the matches up to an index.
Everything is listed in ascending order. The exit status tells whether every record says that
nothing is found.
-/
theorem records_say_what_is_found {options : Options} {table : MacroTable α}
    {automaton : Automaton α}
    (hbuilt : Automaton.ofPattern options.pattern options.direction options.specials table =
      .ok automaton)
    (hdump : ¬ Flag.dump ∈ options.flags) {lines : List (List Char)} (hlines : lines ≠ []) :
    let result := fun line : List Char =>
      resultAsWritten automaton options.flags (Token.ofLiteral line : List α).toArray
    let record := fun line : List Char =>
      Token.render (Token.ofLiteral line : List α) ++ ['\t'] ++ result line ++ ['\n']
    let outcome := matchLines options table lines
    outcome = .finished (lines.flatMap record)
      (lines.any fun line => result line ≠ nothingFound options.flags) ∧
    outcome.output = lines.flatMap record ∧ outcome.report? = none ∧
    (outcome.exitCode = 1 ↔ ∀ line ∈ lines, result line = nothingFound options.flags) ∧
    (∀ line, Token.render (Token.ofLiteral line : List Char) = line) ∧
    (∀ line, Token.render (Token.ofLiteral line : List Segment) =
      [' '].intercalate (Text.words line)) ∧
    (∀ indices : IndexSet, indices.toList.Pairwise fun index next => index < next) ∧
    ∀ input,
      (automaton.hits input).Pairwise (fun hit next => hit.1 < next.1) ∧
      (automaton.hitsTo input).Pairwise (fun hit next => hit.1 < next.1) ∧
      ∀ stop starts, (stop, starts) ∈ automaton.hitsTo input ↔
        starts = automaton.startsTo input stop ∧ starts ≠ ∅ := by
  intro result record outcome
  have houtcome : outcome = .finished (lines.flatMap record)
      (lines.any fun line => result line ≠ nothingFound options.flags) := by
    have hanswers := answerAll_eq (Automaton.direction_of_ofPattern hbuilt) lines
    simp only [outcome, record, result, matchLines, hbuilt, if_neg hdump, List.isEmpty_iff,
      if_neg hlines, hanswers, List.nil_append]
  refine ⟨houtcome, by rw [houtcome]; rfl, by rw [houtcome]; rfl, ?_, fun line => rfl,
    fun line => ?_, fun indices => indices.ascending, fun input => ⟨?_, ?_, fun stop starts => ?_⟩⟩
  · simp [houtcome, Outcome.exitCode]
  · simp [Token.render, Token.ofLiteral, Text.joinWith_eq_intercalate, Function.comp_def]
  · exact pairwise_foundUpTo input.size (automaton.endsFrom input)
  · exact pairwise_foundUpTo input.size (automaton.startsTo input)
  · exact Automaton.mem_hitsTo_iff

/-- Two lines searched from right to left for a loop over a macro; the second has no match. -/
theorem records_of_backward_search :
    let options : Options :=
      ⟨['V', '+'], [], [.backward, .search], [], [(['V'], [['a', 'b'], ['b']])]⟩
    let table : MacroTable Char := MacroTable.ofDeclarations options.macros
    let outcome := matchLines options table [['a', 'b', 'b'], ['c']]
    ∃ automaton, Automaton.ofPattern options.pattern .backward [] table = .ok automaton ∧
      outcome = .finished "abb\t2:{0} 3:{0,2}\nc\t\n".toList true ∧
      outcome.output = "abb\t2:{0} 3:{0,2}\nc\t\n".toList ∧ outcome.report? = none ∧
      ¬ outcome.exitCode = 1 ∧
      Token.render (Token.ofLiteral ['a', 'b', 'b'] : List Char) = ['a', 'b', 'b'] ∧
      (automaton.hits #['a', 'b', 'b']).Pairwise (fun hit next => hit.1 < next.1) ∧
      (automaton.hitsTo #['a', 'b', 'b']).Pairwise (fun hit next => hit.1 < next.1) ∧
      ∀ stop starts, (stop, starts) ∈ automaton.hitsTo #['a', 'b', 'b'] ↔
        starts = automaton.startsTo #['a', 'b', 'b'] stop ∧ starts ≠ ∅ := by
  intro options table outcome
  have hparse : Tree.parse (Vocabulary.ofList ([] ++ table.keys)) .backward ['V', '+'] =
      .ok (.leaf (.literal ['V']) ⟨false, .oneOrMore⟩) := by
    cbv
  have hbuilt := Automaton.ofPattern_eq_ok_iff.2 ⟨_, hparse, rfl⟩
  have hdump : ¬ Flag.dump ∈ options.flags := by decide
  have hlines : [['a', 'b', 'b'], ['c']] ≠ [] := by decide
  obtain ⟨houtcome, houtput, hreport, hstatus, hdisplay, -, -, hlisted⟩ :=
    records_say_what_is_found hbuilt hdump hlines
  exact ⟨_, hbuilt, houtcome.trans (by decide +kernel), houtput.trans (by decide +kernel), hreport,
    hstatus.not.2 (by decide +kernel), hdisplay _, hlisted #['a', 'b', 'b']⟩

end CommandLine

end Motif
