import Mathlib.Data.List.TakeWhile
import RouteCompiler.Model.Uri

/-!
# The query of a URI

What follows the first question mark of a URI is its query, whose pieces stand between
ampersands.  Whether an option that is added begins a query or goes on with one is decided
anew for each option, by whether a question mark stands anywhere before it; once one option
is written, the others go on with its query.

Options are not escaped.  An ampersand in an option would therefore cut it, but question
marks and equals signs in it do no harm: the query has begun before them.

Main definitions:

- `Uri.query?`: what follows the first question mark.
- `Uri.queryPieces`: the pieces of a query.

Main results:

- Lemma `isLogical_appendOptions`: options never change whether a URI is logical.
- Lemma `queryPieces_option`: one more option is one more piece.
- Theorem `options_decoded`: what is read from a URI with options.
- Theorem `component_appendOptions_iff`: when options leave the component as it is.
-/

namespace RouteCompiler.Uri

open RouteCompiler.Text

/-! ## Reading a query -/

/-- What follows the first question mark of a text, if it has one. -/
def query? (cs : List Char) : Option (List Char) :=
  (cutAt ['?'] cs).map Prod.snd

/-- The pieces of the query of a text; a text without a query has none. -/
def queryPieces (cs : List Char) : List (List Char) :=
  match query? cs with
  | none => []
  | some query => splitOn '&' query

theorem query_cons (c : Char) (cs : List Char) :
    query? (c :: cs) = if c = '?' then some cs else query? cs := by
  rw [query?, cutAt]
  by_cases hc : c = '?'
  · subst hc
    rfl
  · have hstart : ['?'].isPrefixOf (c :: cs) = false := by
      simp [List.isPrefixOf, Ne.symm hc]
    rw [hstart, if_neg hc, query?, if_neg Bool.false_ne_true, Option.map_map]
    rfl

/-- A text has a query if it has a question mark. -/
theorem exists_query {cs : List Char} (h : '?' ∈ cs) : ∃ query, query? cs = some query := by
  induction cs with
  | nil => cases h
  | cons c cs ih =>
      rw [query_cons]
      split
      · exact ⟨cs, rfl⟩
      · next hc =>
        rcases List.mem_cons.mp h with heq | hmem
        · exact absurd heq.symm hc
        · exact ih hmem

theorem query_of_not_mem {cs : List Char} (h : '?' ∉ cs) : query? cs = none := by
  induction cs with
  | nil => rfl
  | cons c cs ih =>
      obtain ⟨hc, hcs⟩ := List.ne_and_not_mem_of_not_mem_cons h
      rw [query_cons, if_neg hc.symm, ih hcs]

/-- What is put behind a URI goes on with its query. -/
theorem query_append {cs query : List Char} (h : query? cs = some query) (ds : List Char) :
    query? (cs ++ ds) = some (query ++ ds) := by
  induction cs with
  | nil => cases h
  | cons c cs ih =>
      rw [query_cons] at h
      rw [List.cons_append, query_cons]
      split at h
      · next hc =>
        rw [if_pos hc, ← Option.some.inj h]
      · next hc =>
        rw [if_neg hc, ih h]

/-- The first question mark begins the query. -/
theorem query_append_cons {cs : List Char} (h : '?' ∉ cs) (ds : List Char) :
    query? (cs ++ '?' :: ds) = some ds := by
  induction cs with
  | nil => rfl
  | cons c cs ih =>
      obtain ⟨hc, hcs⟩ := List.ne_and_not_mem_of_not_mem_cons h
      rw [List.cons_append, query_cons, if_neg hc.symm, ih hcs]

/-! ## Adding options -/

/-- The separator that the next option needs. -/
def separator (cs : List Char) : Char :=
  if cs.contains '?' then '&' else '?'

theorem appendOptionTexts_cons (cs : List Char) (option : String × String)
    (options : List (String × String)) :
    appendOptionTexts cs (option :: options) =
      appendOptionTexts (cs ++ separator cs :: optionText option) options := rfl

/-- A first option is put behind the text, with the separator that it needs, and the others
behind it. -/
theorem exists_appendOptionTexts (cs : List Char) (option : String × String)
    (options : List (String × String)) :
    ∃ rest, appendOptionTexts cs (option :: options) = cs ++ separator cs :: rest := by
  induction options generalizing cs option with
  | nil => exact ⟨optionText option, rfl⟩
  | cons next options ih =>
      obtain ⟨rest, hrest⟩ := ih (cs ++ separator cs :: optionText option) next
      refine ⟨optionText option ++
        separator (cs ++ separator cs :: optionText option) :: rest, ?_⟩
      rw [appendOptionTexts_cons, hrest, List.append_assoc, List.cons_append]

theorem appendOptions_empty (uri : String) : appendOptions uri .empty = uri :=
  String.ofList_toList

/-- Options are put behind the URI. -/
theorem exists_appendOptions (uri : String) {options : SortedMap String String}
    (h : options ≠ .empty) :
    ∃ rest, (appendOptions uri options).toList = uri.toList ++ separator uri.toList :: rest := by
  cases hentries : options.entries with
  | nil => exact absurd (SortedMap.ext hentries) h
  | cons option others =>
      rw [appendOptions, String.toList_ofList, hentries]
      exact exists_appendOptionTexts uri.toList option others

/-! ## Logical URIs -/

/-- What stands behind a separator that a text does not hold does not matter to whether
a text begins with it. -/
theorem isPrefixOf_append_cons {l : List Char} {separator : Char} (h : separator ∉ l)
    (cs rest : List Char) : l.isPrefixOf (cs ++ separator :: rest) = l.isPrefixOf cs := by
  induction l generalizing cs with
  | nil => rfl
  | cons c l ih =>
      obtain ⟨hne, hl⟩ := List.ne_and_not_mem_of_not_mem_cons h
      cases cs with
      | nil => simp [List.isPrefixOf, hne.symm]
      | cons c' cs => simp [List.isPrefixOf, ih hl]

theorem isLogical_eq_isPrefixOf (uri : String) :
    isLogical uri = logicalScheme.toList.isPrefixOf uri.toList := by
  rw [isLogical, afterScheme?]
  split
  · next h => simp only [Option.isSome_some, h]
  · next h =>
    rw [Bool.not_eq_true] at h
    rw [h, Option.isSome_none]

/-- Options never change whether a URI is logical. -/
theorem isLogical_appendOptions (uri : String) (options : SortedMap String String) :
    isLogical (appendOptions uri options) = isLogical uri := by
  by_cases hoptions : options = .empty
  · rw [hoptions, appendOptions_empty]
  · obtain ⟨rest, hrest⟩ := exists_appendOptions uri hoptions
    have hseparator : separator uri.toList ∉ logicalScheme.toList := by
      rw [separator]
      split <;> decide
    rw [isLogical_eq_isPrefixOf, isLogical_eq_isPrefixOf, hrest,
      isPrefixOf_append_cons hseparator]

/-! ## Reading options -/

/-- One more option is one more piece. -/
theorem queryPieces_option {text : List Char} (h : '&' ∉ text) (cs : List Char) :
    queryPieces (cs ++ separator cs :: text) = queryPieces cs ++ [text] := by
  by_cases hcs : '?' ∈ cs
  · obtain ⟨query, hquery⟩ := exists_query hcs
    have hseparator : separator cs = '&' := if_pos (List.contains_iff_mem.mpr hcs)
    rw [hseparator, queryPieces, queryPieces, query_append hquery, hquery]
    simp only [splitOn_append_cons, splitOn_of_not_mem h]
  · have hseparator : separator cs = '?' := if_neg (mt List.contains_iff_mem.mp hcs)
    rw [hseparator, queryPieces, queryPieces, query_append_cons hcs, query_of_not_mem hcs]
    exact splitOn_of_not_mem h

/-- Options are one piece each, behind the pieces that were there. -/
theorem queryPieces_appendOptionTexts {options : List (String × String)}
    (h : ∀ option ∈ options, '&' ∉ optionText option) (cs : List Char) :
    queryPieces (appendOptionTexts cs options) = queryPieces cs ++ options.map optionText := by
  induction options generalizing cs with
  | nil => exact (List.append_nil _).symm
  | cons option options ih =>
      obtain ⟨hfirst, hrest⟩ := List.forall_mem_cons.mp h
      rw [appendOptionTexts_cons, ih hrest, queryPieces_option hfirst, List.map_cons,
        List.append_assoc, List.singleton_append]

/-- Options without ampersands are read back from a URI: behind the pieces of the query that
it had stands each of them once, in ascending order of keys.  The URI stays in front of them,
and options never make it logical or physical. -/
theorem options_decoded (uri : String) {options : SortedMap String String}
    (h : ∀ key value, options.find? key = some value → '&' ∉ key.toList ∧ '&' ∉ value.toList) :
    (options = .empty → appendOptions uri options = uri) ∧
    uri.toList <+: (appendOptions uri options).toList ∧
    (∃ entries : List (String × String),
      entries.Pairwise (fun a b => a.1 < b.1) ∧
      (∀ key value, (key, value) ∈ entries ↔ options.find? key = some value) ∧
      queryPieces (appendOptions uri options).toList =
        queryPieces uri.toList ++ entries.map fun e => e.1.toList ++ '=' :: e.2.toList) ∧
    isLogical (appendOptions uri options) = isLogical uri := by
  refine ⟨?_, ?_, ⟨options.entries, ?_, ?_, ?_⟩, isLogical_appendOptions uri options⟩
  · rintro rfl
    exact appendOptions_empty uri
  · by_cases hoptions : options = .empty
    · simp only [hoptions, appendOptions_empty, List.prefix_refl]
    · obtain ⟨rest, hrest⟩ := exists_appendOptions uri hoptions
      rw [hrest]
      exact List.prefix_append uri.toList _
  · exact options.ascending.imp fun hlt => compareOfLessAndEq_eq_lt.mp hlt
  · intro key value
    exact SortedMap.find_eq_some_iff.symm
  · have htexts : ∀ option ∈ options.entries, '&' ∉ optionText option := by
      intro option hoption
      obtain ⟨hkey, hvalue⟩ := h _ _ (SortedMap.find_eq_some_iff.mpr hoption)
      simp [optionText, hkey, hvalue]
    rw [appendOptions, String.toList_ofList]
    exact queryPieces_appendOptionTexts htexts uri.toList

/-- Options with question marks and equals signs are read back from a URI with two question
marks. -/
theorem options_decoded_questions :
    let options : SortedMap String String := .ofList [("b", "x=?"), ("a?", "1")]
    (∀ key value, options.find? key = some value → '&' ∉ key.toList ∧ '&' ∉ value.toList) ∧
      ∃ entries : List (String × String),
        entries.Pairwise (fun a b => a.1 < b.1) ∧
        (∀ key value, (key, value) ∈ entries ↔ options.find? key = some value) ∧
        queryPieces (appendOptions "jms:q?x?" options).toList =
          ["x?".toList] ++ entries.map fun e => e.1.toList ++ '=' :: e.2.toList := by
  intro options
  have hnone : ∀ entry ∈ options.entries, '&' ∉ entry.1.toList ∧ '&' ∉ entry.2.toList := by
    decide
  have hoptions : ∀ key value, options.find? key = some value →
      '&' ∉ key.toList ∧ '&' ∉ value.toList :=
    fun key value hfind => hnone _ (SortedMap.find_eq_some_iff.mp hfind)
  exact ⟨hoptions, (options_decoded "jms:q?x?" hoptions).2.2.1⟩

/-! ## The component -/

/-- What stands behind the first colon of a URI does not matter to its component. -/
theorem component_of_mem {uri : String} (h : ':' ∈ uri.toList)
    (options : SortedMap String String) :
    component (appendOptions uri options) = component uri := by
  by_cases hoptions : options = .empty
  · rw [hoptions, appendOptions_empty]
  · obtain ⟨rest, hrest⟩ := exists_appendOptions uri hoptions
    have hshort : (uri.toList.takeWhile (· != ':')).length ≠ uri.toList.length := by
      intro hlength
      have hwhole := (List.takeWhile_sublist (· != ':')).eq_of_length hlength
      have hall := List.all_takeWhile (p := (· != ':')) (l := uri.toList)
      rw [hwhole] at hall
      have hcolon := List.all_eq_true.mp hall ':' h
      simp at hcolon
    rw [component, hrest, List.takeWhile_append, if_neg hshort, component]

section NoColon

variable {uri : String} (h : ':' ∉ uri.toList)
include h

theorem forall_ne_colon : ∀ c ∈ uri.toList, (c != ':') = true :=
  fun _ hc => bne_iff_ne.mpr fun heq => h (heq ▸ hc)

/-- A URI without a colon is its own component. -/
theorem component_eq_self : component uri = uri := by
  rw [component, List.takeWhile_eq_self_iff.mpr (forall_ne_colon h), String.ofList_toList]

/-- The component of a URI without a colon goes on with the first option. -/
theorem exists_component_eq {options : SortedMap String String} (hoptions : options ≠ .empty) :
    ∃ rest, (component (appendOptions uri options)).toList =
      uri.toList ++ separator uri.toList :: rest := by
  have hseparator : separator uri.toList ≠ ':' := by
    rw [separator]
    split <;> decide
  obtain ⟨rest, hrest⟩ := exists_appendOptions uri hoptions
  refine ⟨rest.takeWhile (· != ':'), ?_⟩
  rw [component, String.toList_ofList, hrest, List.takeWhile_append_of_pos (forall_ne_colon h),
    List.takeWhile_cons, if_pos (bne_iff_ne.mpr hseparator)]

end NoColon

/-- Options leave a URI its component exactly if the URI has a colon, or there are none. -/
theorem component_appendOptions_iff (uri : String) (options : SortedMap String String) :
    component (appendOptions uri options) = component uri ↔
      ':' ∈ uri.toList ∨ options = .empty := by
  constructor
  · intro hsame
    by_cases hcolon : ':' ∈ uri.toList
    · exact .inl hcolon
    · by_cases hoptions : options = .empty
      · exact .inr hoptions
      · obtain ⟨rest, hrest⟩ := exists_component_eq hcolon hoptions
        rw [hsame, component_eq_self hcolon] at hrest
        have hlength := congrArg List.length hrest
        simp at hlength
  · rintro (hcolon | rfl)
    · exact component_of_mem hcolon options
    · rw [appendOptions_empty]

/-- A component that options have changed holds a question mark. -/
theorem question_mem_component {uri : String} {options : SortedMap String String}
    (h : component (appendOptions uri options) ≠ component uri) :
    '?' ∈ (component (appendOptions uri options)).toList := by
  rw [ne_eq, component_appendOptions_iff, not_or] at h
  obtain ⟨rest, hrest⟩ := exists_component_eq h.1 h.2
  rw [hrest, List.mem_append, List.mem_cons, separator]
  split
  · next hcontains => exact .inl (List.contains_iff_mem.mp hcontains)
  · exact .inr (.inl rfl)

end RouteCompiler.Uri
