import Motif.Proofs.Mirror.Relation
import Motif.Proofs.Reading

/-!
# Literals from the other end

Two things can tell the two directions apart: which of several readings of a literal comes first,
and what excludes a token if it is longer than one token itself. Readings are the same from either
end, in every input, exactly if each of them is hidden by earlier ones from both ends or overlaps
none of them; and excluded sequences are exactly if every token that begins or ends one of them is
excluded by itself.
-/

namespace Motif

variable {α : Type}

/-! ## Conditions on token sequences -/

/-- Neither sequence begins or ends with the other one. -/
def Apart (word other : List α) : Prop :=
  (¬ word <+: other ∧ ¬ word <:+ other) ∧ ¬ other <+: word ∧ ¬ other <:+ word

/-- Some of the earlier sequences begins the word, and some ends it. -/
def Hidden (earlier : List (List α)) (word : List α) : Prop :=
  (∃ other ∈ earlier, other <+: word) ∧ ∃ other ∈ earlier, other <:+ word

/-- Each of the sequences is hidden by those before it or has nothing in common with them. -/
def ReadsAlike (readings : List (List α)) : Prop :=
  ∀ position, (h : position < readings.length) →
    Hidden (readings.take position) readings[position] ∨
      ∀ other ∈ readings.take position, Apart readings[position] other

/-- The first and the last token of a sequence. -/
def outermost (word : List α) : List α :=
  word.head?.toList ++ word.getLast?.toList

/--
Every token that begins or ends one of the sequences is one of them by itself, unless it is a
boundary marker or the empty sequence is one of them.
-/
def ExcludesAlike [Token α] (words : List (List α)) : Prop :=
  ∀ word ∈ words, ∀ token ∈ outermost word,
    Token.isBoundary token = false → [] ∈ words ∨ [token] ∈ words

instance [DecidableEq α] (word other : List α) : Decidable (Apart word other) :=
  inferInstanceAs (Decidable (_ ∧ _))

instance [DecidableEq α] (earlier : List (List α)) (word : List α) :
    Decidable (Hidden earlier word) :=
  inferInstanceAs (Decidable (_ ∧ _))

instance [DecidableEq α] (readings : List (List α)) : Decidable (ReadsAlike readings) :=
  inferInstanceAs (Decidable (∀ position, (h : position < readings.length) → _))

instance [DecidableEq α] [Token α] (words : List (List α)) : Decidable (ExcludesAlike words) :=
  inferInstanceAs (Decidable (∀ word ∈ words, _))

theorem readsAlike_iff {readings : List (List α)} :
    ReadsAlike readings ↔
      ∀ earlier word later, readings = earlier ++ word :: later →
        Hidden earlier word ∨ ∀ other ∈ earlier, Apart word other := by
  constructor
  · intro h earlier word later heq
    subst heq
    simpa using h earlier.length (by simp)
  · intro h position hposition
    apply h _ _ (readings.drop (position + 1))
    rw [List.getElem_cons_drop, List.take_append_drop]

theorem readsAlike_of_apart {readings : List (List α)}
    (h : ∀ tokens ∈ readings, ∀ others ∈ readings,
      tokens <+: others ∨ tokens <:+ others → tokens = others) : ReadsAlike readings := by
  rw [readsAlike_iff]
  rintro earlier word later rfl
  by_cases hmem : word ∈ earlier
  · exact Or.inl ⟨⟨word, hmem, List.prefix_refl _⟩, word, hmem, List.suffix_refl _⟩
  · refine Or.inr fun other hother => ?_
    have hne : other ≠ word := fun heq => hmem (heq ▸ hother)
    have hword : word ∈ earlier ++ word :: later := by simp
    have hotherMem : other ∈ earlier ++ word :: later := by simp [hother]
    have hforth := h word hword other hotherMem
    have hback := h other hotherMem word hword
    exact ⟨⟨fun hle => hne (hforth (Or.inl hle)).symm, fun hle => hne (hforth (Or.inr hle)).symm⟩,
      fun hle => hne (hback (Or.inl hle)), fun hle => hne (hback (Or.inr hle))⟩

/--
A word is hidden by earlier sequences, or apart from them, exactly if it is the same whether one of
them begins what comes from the word on or ends what comes up to it.
-/
theorem hidden_or_apart_iff {earlier : List (List α)} {word : List α} :
    (Hidden earlier word ∨ ∀ other ∈ earlier, Apart word other) ↔
      ∀ before after, ((∀ other ∈ earlier, ¬ other <+: word ++ after) ↔
        ∀ other ∈ earlier, ¬ other <:+ before ++ word) := by
  constructor
  · rintro (⟨⟨first, hfirst, hbegins⟩, last, hlast, hends⟩ | hapart) before after
    · refine iff_of_false (fun h => h first hfirst ?_) (fun h => h last hlast ?_)
      · exact hbegins.trans (List.prefix_append word after)
      · exact hends.trans (List.suffix_append before word)
    · refine iff_of_true (fun other hother hle => ?_) (fun other hother hle => ?_)
      · have hword := List.prefix_append word after
        rcases List.prefix_or_prefix_of_prefix hle hword with hbegins | hbegins
        · exact (hapart other hother).2.1 hbegins
        · exact (hapart other hother).1.1 hbegins
      · have hword := List.suffix_append before word
        rcases List.suffix_or_suffix_of_suffix hle hword with hends | hends
        · exact (hapart other hother).2.2 hends
        · exact (hapart other hother).1.2 hends
  · intro h
    have halone := h [] []
    rw [List.append_nil, List.nil_append] at halone
    by_cases hfree : ∀ other ∈ earlier, ¬ other <+: word
    · refine Or.inr fun other hother => ⟨⟨?_, ?_⟩, hfree other hother, halone.1 hfree other hother⟩
      · rintro ⟨after, rfl⟩
        exact (h [] after).2 (halone.1 hfree) _ hother (List.prefix_refl _)
      · rintro ⟨before, rfl⟩
        have hends := (h before []).1 (by rwa [List.append_nil])
        exact hends _ hother (List.suffix_refl _)
    · have hended : ¬ ∀ other ∈ earlier, ¬ other <:+ word :=
        fun hall => hfree (halone.2 hall)
      push Not at hfree hended
      exact Or.inl ⟨hfree, hended⟩

/-- Where a word is found first does not depend on how the list is cut at the word. -/
theorem exists_first_iff {earlier later : List (List α)} {word : List α} {seen : List α → Prop}
    (hmem : ¬ word ∈ earlier) :
    (∃ first rest, earlier ++ word :: later = first ++ word :: rest ∧
      ∀ other ∈ first, ¬ seen other) ↔
        ∀ other ∈ earlier, ¬ seen other := by
  constructor
  · rintro ⟨first, rest, heq, hfirst⟩ other hother
    rcases List.append_eq_append_iff.1 heq with ⟨between, rfl, -⟩ | ⟨between, rfl, hbetween⟩
    · exact hfirst other (List.mem_append_left between hother)
    · cases between with
      | nil => exact hfirst other (by simpa using hother)
      | cons head tail =>
          rw [List.cons_append, List.cons.injEq] at hbetween
          exact absurd (by simp [hbetween.1]) hmem
  · exact fun h => ⟨earlier, later, rfl, h⟩

theorem mem_outermost {word : List α} {token : α} :
    token ∈ outermost word ↔ [token] <+: word ∨ [token] <:+ word := by
  have hfirst : word.head? = some token ↔ [token] <+: word := by
    cases word <;> simp [@eq_comm _ token]
  have hlast : word.getLast? = some token ↔ [token] <:+ word := by
    rw [← List.reverse_prefix, List.reverse_singleton, ← List.head?_reverse]
    cases word.reverse <;> simp [@eq_comm _ token]
  rw [outermost, List.mem_append, Option.mem_toList, Option.mem_toList, hfirst, hlast]

theorem excludesAlike_of_short [Token α] {words : List (List α)}
    (h : ∀ word ∈ words, word.length ≤ 1) : ExcludesAlike words := by
  intro word hword token htoken _
  have hlength := h word hword
  rcases word with _ | ⟨first, _ | ⟨second, rest⟩⟩
  · exact Or.inl hword
  · have heq : token = first := by simpa [outermost] using htoken
    exact Or.inr (heq ▸ hword)
  · simp at hlength

/-! ## Inputs in parts -/

section Parts

variable {input : Array α} {before word after other : List α} {index stop : Nat}

theorem exists_between (h : index ≤ stop) (hstop : stop ≤ input.size) :
    ∃ before word after, input.toList = before ++ word ++ after ∧ before.length = index ∧
      stop = index + word.length ∧ after.length = input.size - stop := by
  refine ⟨input.toList.take index, (input.toList.take stop).drop index, input.toList.drop stop,
    ?_, ?_, ?_, ?_⟩
  · have htake : input.toList.take index = (input.toList.take stop).take index := by
      rw [List.take_take, Nat.min_eq_left h]
    rw [htake, List.take_append_drop, List.take_append_drop]
  · rw [List.length_take, Array.length_toList]
    omega
  · rw [List.length_drop, List.length_take, Array.length_toList]
    omega
  · rw [List.length_drop, Array.length_toList]

theorem exists_around (h : index < input.size) :
    ∃ before token after, input.toList = before ++ token :: after ∧ before.length = index ∧
      after.length = input.size - (index + 1) := by
  have hlength : index < input.toList.length := by rwa [Array.length_toList]
  refine ⟨input.toList.take index, input.toList[index], input.toList.drop (index + 1), ?_, ?_, ?_⟩
  · rw [List.getElem_cons_drop, List.take_append_drop]
  · rw [List.length_take, Nat.min_eq_left (Nat.le_of_lt hlength)]
  · rw [List.length_drop, Array.length_toList]

theorem toList_reverse_of_parts (h : input.toList = before ++ word ++ after) :
    input.reverse.toList = after.reverse ++ word.reverse ++ before.reverse := by
  simp [h]

variable [DecidableEq α]

theorem Token.occursAt_iff_prefix (h : input.toList = before ++ word) :
    Token.occursAt input before.length other = true ↔ other <+: word := by
  have hsize : input.size = (before ++ word).length := by
    rw [← h, Array.length_toList]
  rw [Token.occursAt_iff, h, List.drop_left, hsize]
  simp

end Parts

/-! ## The first of several readings -/

section First

variable [DecidableEq α]

/-- The first of the readings that the input has at an index reaches up to the stop. -/
def FirstSeen (input : Array α) (readings : List (List α)) (index stop : Nat) : Prop :=
  ∃ tokens, readings.find? (Token.occursAt input index) = some tokens ∧
    stop = index + tokens.length

variable {input : Array α} {readings : List (List α)} {before word after : List α}
  {index stop : Nat}

theorem bounds_of_firstSeen (h : FirstSeen input readings index stop) :
    index ≤ stop ∧ stop ≤ input.size := by
  obtain ⟨tokens, hfind, rfl⟩ := h
  have hle := Token.add_length_le_of_occursAt (List.find?_some hfind)
  omega

theorem firstSeen_iff (h : input.toList = before ++ word ++ after) :
    FirstSeen input readings before.length (before.length + word.length) ↔
      ∃ earlier later, readings = earlier ++ word :: later ∧
        ∀ other ∈ earlier, ¬ other <+: word ++ after := by
  rw [List.append_assoc] at h
  unfold FirstSeen
  simp only [List.find?_eq_some_iff_append, Bool.not_eq_eq_eq_not, Bool.not_true,
    ← Bool.not_eq_true, Token.occursAt_iff_prefix h]
  constructor
  · rintro ⟨tokens, ⟨hseen, earlier, later, rfl, hearlier⟩, hlength⟩
    -- Of one length, two sequences that the input has at one index are the same.
    have hprefix : tokens <+: word :=
      List.prefix_of_prefix_length_le hseen (List.prefix_append word after) (by omega)
    have heq : tokens = word := hprefix.eq_of_length (by omega)
    subst heq
    exact ⟨earlier, later, rfl, hearlier⟩
  · rintro ⟨earlier, later, rfl, hearlier⟩
    exact ⟨word, ⟨List.prefix_append word after, earlier, later, rfl, hearlier⟩, rfl⟩

/-- Read backward, it is the first if none of those before it ends what comes up to its end. -/
theorem firstSeen_reverse_iff (h : input.toList = before ++ word ++ after) :
    FirstSeen input.reverse (readings.map List.reverse) after.length
        (after.length + word.length) ↔
      ∃ earlier later, readings = earlier ++ word :: later ∧
        ∀ other ∈ earlier, ¬ other <:+ before ++ word := by
  rw [← List.length_reverse, ← @List.length_reverse _ word,
    firstSeen_iff (toList_reverse_of_parts h)]
  constructor
  · rintro ⟨earlier, later, heq, hearlier⟩
    obtain ⟨first, rest, rfl, rfl, hrest⟩ := List.map_eq_append_iff.1 heq
    obtain ⟨own, others, rfl, hown, rfl⟩ := List.map_eq_cons_iff.1 hrest
    rw [List.reverse_inj] at hown
    subst hown
    refine ⟨first, others, rfl, fun other hother hle => ?_⟩
    apply hearlier other.reverse (List.mem_map_of_mem hother)
    rwa [← List.reverse_append, List.reverse_prefix]
  · rintro ⟨earlier, later, rfl, hearlier⟩
    refine ⟨earlier.map List.reverse, later.map List.reverse, by simp, ?_⟩
    rw [List.forall_mem_map]
    intro other hother
    rw [← List.reverse_append, List.reverse_prefix]
    exact hearlier other hother

theorem mirrors_firstSeen (h : ReadsAlike readings) :
    Mirrors input.size (FirstSeen input readings)
      (FirstSeen input.reverse (readings.map List.reverse)) := by
  refine ⟨fun index stop _ hseen => (bounds_of_firstSeen hseen).2, ?_, ?_⟩
  · intro index stop _ hseen
    have hbounds := bounds_of_firstSeen hseen
    rw [Array.size_reverse] at hbounds
    exact hbounds.2
  · intro index stop hindex hstop
    by_cases hle : index ≤ stop
    · obtain ⟨before, word, after, hinput, rfl, rfl, hafter⟩ := exists_between hle hstop
      have hback : input.size - before.length = after.length + word.length := by omega
      rw [← hafter, hback, firstSeen_iff hinput, firstSeen_reverse_iff hinput]
      refine exists_congr fun earlier => exists_congr fun later => and_congr_right fun heq => ?_
      exact hidden_or_apart_iff.1 (readsAlike_iff.1 h earlier word later heq) before after
    · refine iff_of_false ?_ ?_
      · intro hseen
        have hbounds := bounds_of_firstSeen hseen
        omega
      · intro hseen
        have hbounds := bounds_of_firstSeen hseen
        omega

/-- No weaker condition makes readings the same from either end in every input. -/
theorem forall_mirrors_firstSeen_iff :
    (∀ input : Array α, Mirrors input.size (FirstSeen input readings)
      (FirstSeen input.reverse (readings.map List.reverse))) ↔ ReadsAlike readings := by
  refine ⟨fun h => readsAlike_iff.2 ?_, fun h input => mirrors_firstSeen h⟩
  rintro earlier word later rfl
  by_cases hmem : word ∈ earlier
  · exact Or.inl ⟨⟨word, hmem, List.prefix_refl _⟩, word, hmem, List.suffix_refl _⟩
  · refine hidden_or_apart_iff.2 fun before after => ?_
    -- The word stands alone between the two parts, so that nothing but them decides what is seen.
    have hinput : (before ++ word ++ after).toArray.toList = before ++ word ++ after := rfl
    have hiff := (h (before ++ word ++ after).toArray).iff before.length
      (before.length + word.length) (by simp) (by simp)
    have hstop : (before ++ word ++ after).toArray.size - (before.length + word.length) =
        after.length := by
      simp
      omega
    have hindex : (before ++ word ++ after).toArray.size - before.length =
        after.length + word.length := by
      simp
      omega
    rw [hstop, hindex, firstSeen_iff hinput, firstSeen_reverse_iff hinput] at hiff
    rwa [exists_first_iff hmem, exists_first_iff hmem] at hiff

end First

/-! ## One token at which nothing excluded is seen -/

section Unseen

variable [DecidableEq α] [Token α]

/-- One token inside the input that is no boundary marker and at which no word is seen. -/
def NoneSeen (input : Array α) (words : List (List α)) (index stop : Nat) : Prop :=
  stop = index + 1 ∧ index < input.size ∧ Token.hasBoundaryAt input index = false ∧
    ∀ word ∈ words, ¬ Token.occursAt input index word = true

variable {input : Array α} {words : List (List α)} {before after : List α} {token : α}
  {index stop : Nat}

theorem noneSeen_iff (h : input.toList = before ++ token :: after) :
    NoneSeen input words before.length (before.length + 1) ↔
      Token.isBoundary token = false ∧
        ∀ word ∈ words, ¬ word <+: token :: after := by
  have hsize : input.size = before.length + (after.length + 1) := by
    rw [← Array.length_toList, h, List.length_append, List.length_cons]
  have htoken : input[before.length]? = some token := by
    rw [← Array.getElem?_toList, h, List.getElem?_append_right (Nat.le_refl _)]
    simp
  simp only [NoneSeen, Token.occursAt_iff_prefix h, Token.hasBoundaryAt, htoken, Option.any_some,
    true_and]
  exact and_iff_right (by omega)

theorem noneSeen_reverse_iff (h : input.toList = before ++ token :: after) :
    NoneSeen input.reverse (words.map List.reverse) after.length (after.length + 1) ↔
      Token.isBoundary token = false ∧
        ∀ word ∈ words, ¬ word <:+ before ++ [token] := by
  have hparts : input.toList = before ++ [token] ++ after := by
    rw [h, List.append_assoc, List.singleton_append]
  have hreverse : input.reverse.toList = after.reverse ++ token :: before.reverse := by
    rw [toList_reverse_of_parts hparts, List.append_assoc]
    rfl
  rw [← List.length_reverse, noneSeen_iff hreverse, List.forall_mem_map]
  refine and_congr_right fun _ => forall₂_congr fun word _ => ?_
  rw [← List.reverse_prefix, List.reverse_append, List.reverse_singleton, List.singleton_append]

omit [DecidableEq α] in
/--
Words exclude alike exactly if a token is excluded by what comes from it on whenever it is excluded
by what comes up to it, whatever comes before and after it.
-/
theorem excludesAlike_iff :
    ExcludesAlike words ↔
      ∀ before token after, Token.isBoundary token = false →
        ((∀ word ∈ words, ¬ word <+: token :: after) ↔
          ∀ word ∈ words, ¬ word <:+ before ++ [token]) := by
  constructor
  · intro h before token after hplain
    constructor
    · intro hfree word hword hends
      rcases List.suffix_concat_iff.1 hends with rfl | ⟨rest, rfl, -⟩
      · exact hfree [] hword List.nil_prefix
      · have htoken := mem_outermost.2 (Or.inr (List.suffix_append rest [token]))
        rcases h _ hword token htoken hplain with hmem | hmem
        · exact hfree _ hmem List.nil_prefix
        · exact hfree _ hmem (List.prefix_append [token] after)
    · intro hfree word hword hbegins
      rcases List.prefix_cons_iff.1 hbegins with rfl | ⟨rest, rfl, -⟩
      · exact hfree [] hword List.nil_suffix
      · have htoken := mem_outermost.2 (Or.inl (List.prefix_append [token] rest))
        rcases h _ hword token htoken hplain with hmem | hmem
        · exact hfree _ hmem List.nil_suffix
        · exact hfree _ hmem (List.suffix_append before [token])
  · intro h word hword token htoken hplain
    -- From one end the input goes on as the word does; from the other end there is only the token.
    by_contra hnone
    rw [not_or] at hnone
    have hlong : ∀ other ∈ words, ¬ (other = [] ∨ other = [token]) := by
      rintro other hother (rfl | rfl)
      · exact hnone.1 hother
      · exact hnone.2 hother
    rcases mem_outermost.1 htoken with ⟨after, rfl⟩ | ⟨before, rfl⟩
    · refine (h [] token after hplain).2 (fun other hother hends => hlong other hother ?_) _ hword
        (List.prefix_refl _)
      simpa [List.suffix_cons_iff, or_comm] using hends
    · refine (h before token [] hplain).1
        (fun other hother hbegins => hlong other hother ?_) _ hword (List.suffix_refl _)
      simpa [List.prefix_cons_iff] using hbegins

theorem mirrors_noneSeen (h : ExcludesAlike words) :
    Mirrors input.size (NoneSeen input words)
      (NoneSeen input.reverse (words.map List.reverse)) := by
  refine ⟨?_, ?_, ?_⟩
  · intro index stop _ hnone
    obtain ⟨rfl, hlt, -⟩ := hnone
    exact hlt
  · intro index stop _ hnone
    obtain ⟨rfl, hlt, -⟩ := hnone
    rwa [Array.size_reverse] at hlt
  · intro index stop hindex hstop
    by_cases hnext : stop = index + 1
    · subst hnext
      obtain ⟨before, token, after, hinput, rfl, hafter⟩ := exists_around hstop
      have hback : input.size - before.length = after.length + 1 := by omega
      rw [← hafter, hback, noneSeen_iff hinput, noneSeen_reverse_iff hinput]
      exact and_congr_right fun hplain => excludesAlike_iff.1 h before token after hplain
    · refine iff_of_false (fun hnone => hnext hnone.1) ?_
      intro hnone
      have heq := hnone.1
      omega

/-- No weaker condition makes exclusions the same from either end in every input. -/
theorem forall_mirrors_noneSeen_iff :
    (∀ input : Array α, Mirrors input.size (NoneSeen input words)
      (NoneSeen input.reverse (words.map List.reverse))) ↔ ExcludesAlike words := by
  refine ⟨fun h => excludesAlike_iff.2 ?_, fun h input => mirrors_noneSeen h⟩
  intro before token after hplain
  have hinput : (before ++ token :: after).toArray.toList = before ++ token :: after := rfl
  have hiff := (h (before ++ token :: after).toArray).iff before.length (before.length + 1)
    (by simp) (by simp)
  have hstop : (before ++ token :: after).toArray.size - (before.length + 1) = after.length := by
    simp
    omega
  have hindex : (before ++ token :: after).toArray.size - before.length = after.length + 1 := by
    simp
  rw [hstop, hindex, noneSeen_iff hinput, noneSeen_reverse_iff hinput] at hiff
  simpa only [hplain, true_and] using hiff

end Unseen

/-! ## Literals and exclusions -/

section Literals

variable [Token α] {table : MacroTable α} {direction : Direction} {input : Array α}
  {text : List Char} {texts : List (List Char)}

theorem MacroTable.readings_reverse :
    table.reverse.readings .backward text = (table.readings .forward text).map List.reverse := by
  unfold MacroTable.readings MacroTable.get?
  rw [id?_reverse]
  cases table.id? text with
  | none => rfl
  | some id => simp

theorem MacroTable.flatMap_readings_reverse :
    texts.flatMap (table.reverse.readings .backward) =
      (texts.flatMap (table.readings .forward)).map List.reverse := by
  rw [List.map_flatMap]
  exact List.flatMap_congr fun text _ => MacroTable.readings_reverse

variable [DecidableEq α]

theorem literalMatches_eq_firstSeen :
    LiteralMatches table direction input text =
      FirstSeen input (table.readings direction text) := by
  funext index stop
  exact propext literalMatches_iff

theorem excludes_eq_noneSeen :
    Excludes table direction input (some texts) =
      NoneSeen input (texts.flatMap (table.readings direction)) := by
  funext index stop
  have hunseen : ∀ text,
      (∀ next, ¬ LiteralMatches table direction input text index next) ↔
        ∀ word ∈ table.readings direction text,
          ¬ Token.occursAt input index word = true := by
    intro text
    rw [← not_exists, exists_literalMatches_iff, not_exists]
    exact forall_congr' fun word => not_and
  refine propext ?_
  unfold Excludes NoneSeen
  simp only [Option.some.injEq, exists_eq_left', hunseen, List.mem_flatMap, forall_exists_index,
    and_imp]
  refine and_congr_right fun _ => and_congr_right fun _ => and_congr_right fun _ => ?_
  exact ⟨fun h word text htext hword => h text htext word hword,
    fun h text htext word hword => h word text htext hword⟩

/-- A literal whose readings read alike is the same from either end. -/
theorem mirrors_literalMatches (h : ReadsAlike (table.readings .forward text)) :
    Mirrors input.size (LiteralMatches table .forward input text)
      (LiteralMatches table.reverse .backward input.reverse text) := by
  rw [literalMatches_eq_firstSeen, literalMatches_eq_firstSeen, MacroTable.readings_reverse]
  exact mirrors_firstSeen h

theorem mirrors_excludes {choices : Option (List (List Char))}
    (h : ∀ texts, choices = some texts →
      ExcludesAlike (texts.flatMap (table.readings .forward))) :
    Mirrors input.size (Excludes table .forward input choices)
      (Excludes table.reverse .backward input.reverse choices) := by
  cases choices with
  | none =>
      apply Mirrors.never
      · intro index stop _ hexcluded
        obtain ⟨-, -, -, texts, htexts, -⟩ := hexcluded
        cases htexts
      · intro index stop _ hexcluded
        obtain ⟨-, -, -, texts, htexts, -⟩ := hexcluded
        cases htexts
  | some texts =>
      rw [excludes_eq_noneSeen, excludes_eq_noneSeen, MacroTable.flatMap_readings_reverse]
      exact mirrors_noneSeen (h texts rfl)

end Literals

end Motif
