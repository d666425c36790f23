import RouteCompiler.Proofs.Document.Building
import RouteCompiler.Proofs.Document.Order
import RouteCompiler.Proofs.Document.Restructuring

/-!
# Performing edits

Whatever makes or changes a document does it by a few edits.  Listing the edits that are performed
shows the document after each of them, also where what performs them fails in the end.

Main definitions:

- `Document.ArenaEdit`: an edit, as it is performed.
- `Document.Safe`: edits that name nodes of the arena only and leave a forest after each of them.
- `Document.Runs`: safe edits with what holds after the last one.
- `Document.parseEdits`: the edits that reading a document performs.

Main results:

- Theorem `Safe.at_edit`: what holds before and after each edit.
- Theorem `IsForest.safe_graftEdits`: copying a tree.
- Theorems `safe_parseEdits` and `performAll_parseEdits`: reading a document.
-/

namespace RouteCompiler.Route

open RouteCompiler.Text

namespace Document

variable {d d' d'' : Document} {es fs : List ArenaEdit} {P Q : Document → Prop}
  {x p : NodeId}

/-! ## Edits -/

/-- One edit of a document. -/
inductive ArenaEdit where
  | push (content : Content)
  | modify (id : NodeId) (change : Content → Content)
  | link (parent child : NodeId)
  | setRoot (id : NodeId)
  | appendChild (parent child : NodeId)
  | replace (target replacement : NodeId)
  | replaceWithMany (target : NodeId) (replacements : List NodeId)

namespace ArenaEdit

/-- What an edit makes of a document. -/
def perform (d : Document) : ArenaEdit → Document
  | push content => (d.push content).1
  | modify id change => d.modifyContent id change
  | link parent child => d.link parent child
  | setRoot id => ⟨d.nodes, id⟩
  | appendChild parent child => d.appendChild parent child
  | replace target replacement => d.replace target replacement
  | replaceWithMany target replacements => d.replaceWithMany target replacements

/-- The nodes that an edit names. -/
def addresses : ArenaEdit → List NodeId
  | push _ => []
  | modify id _ => [id]
  | link parent child => [parent, child]
  | setRoot id => [id]
  | appendChild parent child => [parent, child]
  | replace target replacement => [target, replacement]
  | replaceWithMany target replacements => target :: replacements

end ArenaEdit

/-- What edits make of a document, one after the other. -/
def performAll (d : Document) (es : List ArenaEdit) : Document :=
  es.foldl ArenaEdit.perform d

theorem performAll_append (d : Document) (es fs : List ArenaEdit) :
    performAll d (es ++ fs) = performAll (performAll d es) fs :=
  List.foldl_append

/-- Edits name nodes of the arena only, and leave a forest after each of them. -/
def Safe (d : Document) : List ArenaEdit → Prop
  | [] => True
  | e :: es => (∀ x ∈ e.addresses, x < d.size) ∧ (e.perform d).IsForest ∧ Safe (e.perform d) es

theorem safe_append : d.Safe (es ++ fs) ↔ d.Safe es ∧ (performAll d es).Safe fs := by
  induction es generalizing d with
  | nil => simp [Safe, performAll]
  | cons e es ih =>
      have hrest : performAll d (e :: es) = performAll (e.perform d) es := rfl
      rw [List.cons_append, Safe, Safe, ih, hrest, and_assoc, and_assoc]

theorem Safe.isForest (h : d.Safe es) (hd : d.IsForest) : (performAll d es).IsForest := by
  induction es generalizing d with
  | nil => exact hd
  | cons e es ih => exact ih h.2.2 h.2.1

/-- Before a safe edit the nodes that it names are there, and after it there is a forest. -/
theorem Safe.at_edit {before behind : List ArenaEdit} {e : ArenaEdit}
    (h : d.Safe (before ++ e :: behind)) :
    (∀ x ∈ e.addresses, x < (performAll d before).size) ∧
      (e.perform (performAll d before)).IsForest := by
  obtain ⟨-, hnames, hforest, -⟩ := safe_append.mp h
  exact ⟨hnames, hforest⟩

/-- No edit takes a place out of the arena. -/
theorem size_le_performAll (d : Document) (es : List ArenaEdit) :
    d.size ≤ (performAll d es).size := by
  induction es generalizing d with
  | nil => exact Nat.le_refl _
  | cons e es ih =>
      refine Nat.le_trans ?_ (ih (e.perform d))
      cases e with
      | setRoot id => exact Nat.le_refl _
      | push => simp [ArenaEdit.perform]
      | modify => simp [ArenaEdit.perform]
      | link => simp [ArenaEdit.perform]
      | appendChild => simp [ArenaEdit.perform]
      | replace => simp [ArenaEdit.perform]
      | replaceWithMany => simp [ArenaEdit.perform]

/-- Edits are safe, and something holds after the last one. -/
structure Runs (d : Document) (es : List ArenaEdit) (Q : Document → Prop) : Prop where
  safe : d.Safe es
  result : Q (performAll d es)

theorem Runs.nil (h : Q d) : d.Runs [] Q :=
  ⟨trivial, h⟩

theorem Runs.append (h : d.Runs es P) (hnext : P (performAll d es) → (performAll d es).Runs fs Q) :
    d.Runs (es ++ fs) Q := by
  have hlast := hnext h.result
  refine ⟨safe_append.mpr ⟨h.safe, hlast.safe⟩, ?_⟩
  rw [performAll_append]
  exact hlast.result

theorem Runs.mono (h : d.Runs es P) (hweaker : ∀ d', P d' → Q d') : d.Runs es Q :=
  ⟨h.safe, hweaker _ h.result⟩

/-- The edits of several parts in turn, each of which looks at what the ones before it left. -/
def inTurn : List (Document → List ArenaEdit) → Document → List ArenaEdit
  | [], _ => []
  | part :: parts, d => part d ++ inTurn parts (performAll d (part d))

theorem performAll_inTurn (parts : List (Document → List ArenaEdit)) (d : Document) :
    performAll d (inTurn parts d) = parts.foldl (fun d part => performAll d (part d)) d := by
  induction parts generalizing d with
  | nil => rfl
  | cons part parts ih => rw [inTurn, performAll_append, ih, List.foldl_cons]

theorem Runs.inTurn_cons {part : Document → List ArenaEdit}
    {parts : List (Document → List ArenaEdit)}
    (h : d.Runs (part d) P) (hnext : ∀ d', P d' → d'.Runs (inTurn parts d') Q) :
    d.Runs (inTurn (part :: parts) d) Q :=
  h.append fun hfirst => hnext _ hfirst

/-- A forest with the same root, and with no less nodes. -/
structure Extends (d d' : Document) : Prop where
  isForest : d'.IsForest
  root : d'.root = d.root
  size_le : d.size ≤ d'.size

theorem IsForest.extends_self (h : d.IsForest) : d.Extends d :=
  ⟨h, rfl, Nat.le_refl _⟩

theorem Extends.trans (h : d.Extends d') (h' : d'.Extends d'') : d.Extends d'' :=
  ⟨h'.isForest, h'.root.trans h.root, Nat.le_trans h.size_le h'.size_le⟩

/-! ## Copying trees -/

mutual

/-- The edits that add a copy of a tree, whose nodes take the places from the given one on. -/
def graftEdits (n : NodeId) : Tree → List ArenaEdit
  | .node content children => .push content :: graftAllEdits (n + 1) n children

/-- The edits that add copies of trees as the last children of a node. -/
def graftAllEdits (n parent : NodeId) : List Tree → List ArenaEdit
  | [] => []
  | tree :: trees =>
      graftEdits n tree ++ .link parent n :: graftAllEdits (n + tree.contents.length) parent trees

end

private theorem performAll_graftAllEdits_of_graft {trees : List Tree}
    (ih : ∀ t ∈ trees, ∀ d : Document, performAll d (graftEdits d.size t) = (d.graft t).1)
    (d : Document) (parent : NodeId) :
    performAll d (graftAllEdits d.size parent trees) = d.graftAll parent trees := by
  induction trees generalizing d with
  | nil => rfl
  | cons t trees ihtrees =>
      have hrest := ihtrees (fun u hu => ih u (List.mem_cons_of_mem t hu))
        ((d.graft t).1.link parent d.size)
      rw [size_link, size_graft] at hrest
      rw [graftAllEdits, performAll_append, ih t List.mem_cons_self, Document.graftAll, id_graft]
      exact hrest

theorem performAll_graftEdits (d : Document) (t : Tree) :
    performAll d (graftEdits d.size t) = (d.graft t).1 := by
  induction t generalizing d with
  | node content children ih =>
      have hall := performAll_graftAllEdits_of_graft ih (d.push content).1 d.size
      rw [size_push] at hall
      exact hall

namespace IsForest

private theorem safe_graftAllEdits_of_graft {trees : List Tree}
    (ih : ∀ t ∈ trees, ∀ {d : Document}, d.IsForest → d.Safe (graftEdits d.size t))
    (h : d.IsForest) (hp : p < d.size) : d.Safe (graftAllEdits d.size p trees) := by
  induction trees generalizing d with
  | nil => trivial
  | cons t trees ihtrees =>
      have hlink := h.link_graft hp t
      have hsize := size_lt_size_graft d t
      have hrest := ihtrees (fun u hu => ih u (List.mem_cons_of_mem t hu)) hlink (by
        rw [size_link]
        exact Nat.lt_trans hp hsize)
      rw [size_link, size_graft] at hrest
      rw [graftAllEdits, safe_append, performAll_graftEdits]
      refine ⟨ih t List.mem_cons_self h, ?_, hlink, hrest⟩
      simpa [ArenaEdit.addresses] using ⟨Nat.lt_trans hp hsize, hsize⟩

/-- While a tree is copied there is a forest, to which nodes are added. -/
theorem safe_graftEdits (h : d.IsForest) (t : Tree) : d.Safe (graftEdits d.size t) := by
  induction t generalizing d with
  | node content children ih =>
      have hall := safe_graftAllEdits_of_graft (fun t ht _ hd => ih t ht hd) (h.push content)
        (p := d.size) (by simp)
      rw [size_push] at hall
      exact ⟨by simp [ArenaEdit.addresses], h.push content, hall⟩

end IsForest

end Document

/-! ## Reading a document -/

namespace Builder

open Document

variable {b b' : Builder} {name content : List Char} {attributes : List Attribute} {id : NodeId}
  {token : Token} {position total : Nat}

/-- The edits that add an element.  A second root is made before it is refused. -/
def elementEdits (b : Builder) (name : List Char) (attributes : List Attribute) : List ArenaEdit :=
  let made := ArenaEdit.push (.element (String.ofList name) attributes)
  match b.openElements with
  | (parent, _) :: _ => [made, .link parent b.document.size]
  | [] => if b.hasRoot then [made] else [made, .setRoot b.document.size]

/-- The edits that add character data. -/
def textEdits (b : Builder) (content : List Char) : List ArenaEdit :=
  let value := String.ofList (trimChars content)
  if (trimChars content).isEmpty then []
  else
    match b.openElements with
    | [] => []
    | (parent, _) :: _ =>
        let added := [ArenaEdit.push (.text value), .link parent b.document.size]
        match (b.document.children parent).getLast? with
        | some last =>
            if b.document.isElement last then added else [.modify last (appendText value)]
        | none => added

/-- The edits that taking in a token performs. -/
def stepEdits (b : Builder) : Token → List ArenaEdit
  | .text written => match Entity.unescape written with
    | .ok content => b.textEdits content
    | .error _ => []
  | .verbatim content => b.textEdits content
  | .tag content _ => match Attribute.ofTagContent content with
    | .ok attributes => b.elementEdits (Attribute.tagName content) attributes
    | .error _ => []
  | .close _ => []
  | .broken _ => []

/-- The edits that taking in tokens performs, until one of them is refused. -/
def runEdits (total : Nat) : List (Token × List Char) → Builder → List ArenaEdit
  | [], _ => []
  | (token, unread) :: tokens, b =>
      b.stepEdits token ++ match b.step (total - byteLength unread) token with
        | .ok b' => runEdits total tokens b'
        | .error _ => []

/-! ### What reading makes -/

theorem document_of_addElement (h : b.addElement name attributes = .ok (b', id)) :
    b'.document = performAll b.document (b.elementEdits name attributes) := by
  cases hopen : b.openElements with
  | nil =>
      cases hroot : b.hasRoot with
      | true => simp [addElement, hopen, hroot] at h
      | false =>
          simp only [addElement, hopen, hroot] at h
          cases h
          simp only [elementEdits, hopen, hroot]
          rfl
  | cons e outer =>
      simp only [addElement, hopen] at h
      cases h
      simp only [elementEdits, hopen]
      rfl

theorem document_of_addText (h : b.addText content = .ok b') :
    b'.document = performAll b.document (b.textEdits content) := by
  rw [addText] at h
  rw [textEdits]
  cases hblank : (trimChars content).isEmpty with
  | true =>
      simp only [hblank] at h
      cases h
      rfl
  | false =>
      cases hopen : b.openElements with
      | nil => simp [hblank, hopen] at h
      | cons e outer =>
          simp only [hblank, hopen] at h ⊢
          cases hlast : (b.document.children e.1).getLast? with
          | none =>
              simp only [hlast] at h
              cases h
              rfl
          | some last =>
              simp only [hlast] at h ⊢
              cases helement : b.document.isElement last with
              | true =>
                  simp only [helement] at h
                  cases h
                  rfl
              | false =>
                  simp only [helement] at h
                  cases h
                  rfl

/-- Character data opens and closes nothing. -/
theorem kept_of_addText (h : b.addText content = .ok b') :
    b'.hasRoot = b.hasRoot ∧ b'.openElements = b.openElements := by
  rw [addText] at h
  split at h
  · cases h
    exact ⟨rfl, rfl⟩
  · split at h
    · cases h
    · split at h
      · split at h <;> cases h <;> exact ⟨rfl, rfl⟩
      · cases h
        exact ⟨rfl, rfl⟩

theorem document_of_step (h : b.step position token = .ok b') :
    b'.document = performAll b.document (b.stepEdits token) := by
  cases token with
  | text written =>
      obtain ⟨content, hcontent, hadd⟩ := Outcome.of_bind_eq_ok h
      rw [stepEdits, Outcome.of_mapError_eq_ok hcontent]
      exact document_of_addText hadd
  | verbatim content => exact document_of_addText h
  | tag content isEmpty =>
      obtain ⟨attributes, hattributes, hrest⟩ := Outcome.of_bind_eq_ok h
      obtain ⟨⟨b₁, id⟩, hadd, hlast⟩ := Outcome.of_bind_eq_ok hrest
      rw [stepEdits, Outcome.of_mapError_eq_ok hattributes, ← document_of_addElement hadd]
      cases hlast
      cases isEmpty <;> rfl
  | close name =>
      rw [step] at h
      split at h
      · cases h
      · split at h
        · cases h
          rfl
        · cases h
  | broken fault => cases h

theorem document_of_run {tokens : List (Token × List Char)} (h : run total tokens b = .ok b') :
    b'.document = performAll b.document (runEdits total tokens b) := by
  induction tokens generalizing b with
  | nil =>
      cases h
      rfl
  | cons entry tokens ih =>
      obtain ⟨token, unread⟩ := entry
      obtain ⟨b₁, hstep, hrest⟩ := Outcome.of_bind_eq_ok h
      rw [runEdits, hstep, performAll_append, ← document_of_step hstep]
      exact ih hrest

/-! ### Forests while reading -/

/-- From the first element on there is a forest, and open elements are in the arena. -/
structure IsSound (b : Builder) : Prop where
  started : b.hasRoot = true → b.document.IsForest
  nothing : b.hasRoot = false → b.document = .empty
  opened : ∀ e ∈ b.openElements, b.hasRoot = true ∧ e.1 < b.document.size

theorem isSound_start : start.IsSound :=
  ⟨nofun, fun _ => rfl, nofun⟩

namespace IsSound

/-- A new node is added below an open element. -/
theorem safe_added (h : b.IsSound) {e : NodeId × List Char} (he : e ∈ b.openElements)
    (content : Content) : b.document.Safe [.push content, .link e.1 b.document.size] := by
  obtain ⟨hroot, hlt⟩ := h.opened e he
  have hforest := h.started hroot
  refine ⟨nofun, hforest.push content, ?_, hforest.push_link content hlt, trivial⟩
  simp only [ArenaEdit.addresses, ArenaEdit.perform, size_push, List.forall_mem_cons]
  exact ⟨Nat.lt_succ_of_lt hlt, Nat.lt_succ_self _, nofun⟩

theorem safe_elementEdits (h : b.IsSound) (name : List Char) (attributes : List Attribute) :
    b.document.Safe (b.elementEdits name attributes) := by
  cases hopen : b.openElements with
  | nil =>
      cases hroot : b.hasRoot with
      | true =>
          simp only [elementEdits, hopen, hroot]
          exact ⟨nofun, (h.started hroot).push _, trivial⟩
      | false =>
          have hempty := h.nothing hroot
          simp only [elementEdits, hopen, hroot, hempty]
          have hfirst := IsForest.push_empty (.element (String.ofList name) attributes)
          exact ⟨nofun, hfirst, by simp [ArenaEdit.addresses, ArenaEdit.perform], hfirst, trivial⟩
  | cons e outer =>
      simp only [elementEdits, hopen]
      exact h.safe_added (hopen ▸ List.mem_cons_self) _

theorem safe_textEdits (h : b.IsSound) (content : List Char) :
    b.document.Safe (b.textEdits content) := by
  rw [textEdits]
  split
  · trivial
  · cases hopen : b.openElements with
    | nil => trivial
    | cons e outer =>
        have he : e ∈ b.openElements := hopen ▸ List.mem_cons_self
        have hforest := h.started (h.opened e he).1
        have hadded := h.safe_added he (.text (String.ofList (trimChars content)))
        simp only
        split
        · next last hlast =>
          split
          · exact hadded
          · refine ⟨?_, hforest.modifyContent last _, trivial⟩
            simpa [ArenaEdit.addresses] using hforest.child_lt e.1 last (List.mem_of_getLast? hlast)
        · exact hadded

theorem safe_stepEdits (h : b.IsSound) (token : Token) : b.document.Safe (b.stepEdits token) := by
  cases token with
  | text written =>
      rw [stepEdits]
      split
      · exact h.safe_textEdits _
      · trivial
  | verbatim content => exact h.safe_textEdits content
  | tag content isEmpty =>
      rw [stepEdits]
      split
      · exact h.safe_elementEdits _ _
      · trivial
  | close name => trivial
  | broken fault => trivial

/-- Before the first element nothing is open. -/
theorem closed (h : b.IsSound) (hroot : b.hasRoot = false) : b.openElements = [] := by
  refine List.eq_nil_iff_forall_not_mem.mpr fun e he => ?_
  rw [(h.opened e he).1] at hroot
  cases hroot

/-- Edits that begin no document keep what is known of open elements. -/
theorem of_edits (h : b.IsSound) {es : List ArenaEdit} (hsafe : b.document.Safe es)
    (hnone : b.hasRoot = false → es = []) (hdocument : b'.document = performAll b.document es)
    (hroot : b'.hasRoot = b.hasRoot) (hopen : b'.openElements = b.openElements) : b'.IsSound := by
  refine ⟨fun hyes => ?_, fun hnot => ?_, fun e he => ?_⟩
  · rw [hdocument]
    exact hsafe.isForest (h.started (hroot ▸ hyes))
  · rw [hdocument, hnone (hroot ▸ hnot)]
    exact h.nothing (hroot ▸ hnot)
  · rw [hopen] at he
    rw [hroot, hdocument]
    exact ⟨(h.opened e he).1,
      Nat.lt_of_lt_of_le (h.opened e he).2 (size_le_performAll b.document es)⟩

theorem addElement (h : b.IsSound) (hadd : b.addElement name attributes = .ok (b', id)) :
    b'.IsSound ∧ b'.hasRoot = true ∧ id < b'.document.size := by
  have hdocument := document_of_addElement hadd
  have hsafe := h.safe_elementEdits name attributes
  cases hopen : b.openElements with
  | nil =>
      cases hroot : b.hasRoot with
      | true => simp [Builder.addElement, hopen, hroot] at hadd
      | false =>
          simp only [Builder.addElement, hopen, hroot, h.nothing hroot] at hadd
          cases hadd
          exact ⟨⟨fun _ => IsForest.push_empty _, fun hnot => absurd hnot.symm Bool.false_ne_true,
            fun e he => absurd he List.not_mem_nil⟩, rfl, Nat.zero_lt_one⟩
  | cons e outer =>
      have hroot := (h.opened e (hopen ▸ List.mem_cons_self)).1
      simp only [Builder.addElement, hopen] at hadd
      cases hadd
      refine ⟨h.of_edits hsafe ?_ hdocument rfl hopen.symm, hroot, ?_⟩
      · intro hnot
        rw [hroot] at hnot
        cases hnot
      · rw [size_link, size_push]
        exact Nat.lt_succ_self _

theorem addText (h : b.IsSound) (hadd : b.addText content = .ok b') : b'.IsSound := by
  obtain ⟨hroot, hopen⟩ := kept_of_addText hadd
  refine h.of_edits (h.safe_textEdits content) (fun hnot => ?_) (document_of_addText hadd) hroot
    hopen
  rw [textEdits, h.closed hnot]
  exact ite_self []

theorem step (h : b.IsSound) (hstep : b.step position token = .ok b') : b'.IsSound := by
  cases token with
  | text written =>
      obtain ⟨content, -, hadd⟩ := Outcome.of_bind_eq_ok hstep
      exact h.addText hadd
  | verbatim content => exact h.addText hstep
  | tag content isEmpty =>
      obtain ⟨attributes, -, hrest⟩ := Outcome.of_bind_eq_ok hstep
      obtain ⟨⟨b₁, id⟩, hadd, hlast⟩ := Outcome.of_bind_eq_ok hrest
      obtain ⟨hsound, hroot, hid⟩ := h.addElement hadd
      cases hlast
      cases isEmpty with
      | true => exact hsound
      | false =>
          exact ⟨hsound.started, hsound.nothing,
            List.forall_mem_cons.mpr ⟨⟨hroot, hid⟩, hsound.opened⟩⟩
  | close name =>
      rw [Builder.step] at hstep
      split at hstep
      · cases hstep
      · next e outer hopen =>
        split at hstep
        · cases hstep
          refine ⟨h.started, h.nothing, fun e he => h.opened e ?_⟩
          rw [hopen]
          exact List.mem_cons_of_mem _ he
        · cases hstep
  | broken fault => cases hstep

theorem run {tokens : List (Token × List Char)} (h : b.IsSound)
    (hrun : Builder.run total tokens b = .ok b') : b'.IsSound := by
  induction tokens generalizing b with
  | nil =>
      cases hrun
      exact h
  | cons entry tokens ih =>
      obtain ⟨token, unread⟩ := entry
      obtain ⟨b₁, hstep, hrest⟩ := Outcome.of_bind_eq_ok hrun
      exact ih (h.step hstep) hrest

/-- Whatever the tokens are, from the first element on there is a forest. -/
theorem safe_runEdits (h : b.IsSound) (total : Nat) (tokens : List (Token × List Char)) :
    b.document.Safe (runEdits total tokens b) := by
  induction tokens generalizing b with
  | nil => trivial
  | cons entry tokens ih =>
      obtain ⟨token, unread⟩ := entry
      refine safe_append.mpr ⟨h.safe_stepEdits token, ?_⟩
      split
      · next b₁ hstep =>
        rw [← document_of_step hstep]
        exact ih (h.step hstep)
      · trivial

end IsSound

end Builder

namespace Document

variable {d : Document}

/-- The edits that reading a document performs, from nothing. -/
def parseEdits (text : String) : List ArenaEdit :=
  let cs := dropByteOrderMark text.toList
  Builder.runEdits (byteLength cs) (Token.scan cs) .start

/-- While a text is read there is a forest from the first element on, also if the text turns out
to be no document. -/
theorem safe_parseEdits (text : String) : Document.empty.Safe (parseEdits text) :=
  Builder.isSound_start.safe_runEdits _ _

private theorem exists_run_of_parse {text : String} (h : parse text = .ok d) :
    ∃ b, Builder.run (byteLength (dropByteOrderMark text.toList))
        (Token.scan (dropByteOrderMark text.toList)) .start = .ok b ∧
      b.hasRoot = true ∧ b.document = d := by
  obtain ⟨b, hrun, hfinish⟩ := Outcome.of_bind_eq_ok h
  exact ⟨b, hrun, Builder.of_finish_eq_ok hfinish⟩

/-- A document that was read is what the edits make. -/
theorem performAll_parseEdits {text : String} (h : parse text = .ok d) :
    performAll .empty (parseEdits text) = d := by
  obtain ⟨b, hrun, -, rfl⟩ := exists_run_of_parse h
  exact (Builder.document_of_run hrun).symm

theorem isForest_of_parse {text : String} (h : parse text = .ok d) : d.IsForest := by
  obtain ⟨b, hrun, hroot, rfl⟩ := exists_run_of_parse h
  exact (Builder.isSound_start.run hrun).started hroot

end Document

end RouteCompiler.Route
