import RouteCompiler.Proofs.Generation.Displacement

/-!
# The verdict on a definition

Whether generation displaces an action can be read off the definition: a consumer that
leads a route is expanded, and an action behind it has the name of a slot.  The
verdict on a tree changes only with the verdict at a place of it, and what generation
adds has no part in it.

Main definitions:

- `Placed.displaces`: whether an action is displaced.
- `Ready`: a place before which nothing is expanded.

Main results:

- Theorem `Ready.displaces_of_leads`: a consumer that leads a route decides for the tree.
- Theorem `Ready.displaces_quiet`: the verdict outlasts an expansion that displaces
  nothing.
-/

namespace RouteCompiler

open RouteCompiler.Route

namespace Route

namespace Placed

/-! ## The verdict -/

section Verdict

variable (s : Snapshot)

/-- Whether expanding a consumer some times displaces an action behind it.  Only the
first template leaves aside what comes next. -/
def displacedBy : Nat → List Placed → Bool
  | 0, _ => false
  | 1, behind => hasLateSlot (contained s behind)
  | _ + 2, behind => hasLateSlot behind

/-- Whether expanding the first of some elements displaces an action. -/
def leadDisplaces : List Placed → Bool
  | [] => false
  | t :: ts =>
      if t.content.isElement then displacedBy s (t.content.expansions s).length ts
      else leadDisplaces ts

/-- Whether expanding the consumer that leads a route displaces an action. -/
def routeDisplaces (t : Placed) : Bool :=
  t.content.name? == some "route" && leadDisplaces s t.children

mutual

/-- Whether a route right below a context displaces an action. -/
def displaces : Placed → Bool
  | node _ content children =>
      content.isElement && (content.name? == some "camelContext" &&
        children.any (routeDisplaces s) || displacesAll children)

/-- Whether a route in one of some trees displaces an action. -/
def displacesAll : List Placed → Bool
  | [] => false
  | t :: ts => t.displaces || displacesAll ts

end

theorem displacesAll_eq_any (ts : List Placed) :
    displacesAll s ts = ts.any (displaces s) := by
  induction ts with
  | nil => rfl
  | cons t ts ih => rw [displacesAll, ih, List.any_cons]

theorem displaces_node {c : Content} (h : c.isElement) (id : NodeId) (children : List Placed) :
    (node id c children).displaces s =
      (c.name? == some "camelContext" && children.any (routeDisplaces s) ||
        children.any (displaces s)) := by
  rw [displaces, displacesAll_eq_any, h, Bool.true_and]

end Verdict

variable {s : Snapshot} {t u : Placed} {ts left right : List Placed} {k : Nat}

theorem hasLateSlot_contained (h : displacedBy s (k + 1) ts = false) :
    hasLateSlot (contained s ts) = false := by
  cases k with
  | zero => exact h
  | succ k => exact hasLateSlot_contained_of_quiet h

/-- After a round that displaces nothing the verdict on the other rounds is the same. -/
theorem displacedBy_result {y : Expansion} {low maxRetry : Nat} {uri : String}
    {behind : List Placed} (hy : y.Fits low (!(comesNext s behind).isEmpty))
    (h : hasLateSlot (contained s behind) = false) (k : Nat) :
    displacedBy s k (y.result s maxRetry uri behind) = displacedBy s (k + 1) behind := by
  rcases k with _ | _ | k
  · exact h.symm
  · exact (congrArg hasLateSlot (Expansion.contained_result hy)).trans
      (Expansion.hasLateSlot_result hy h)
  · exact Expansion.hasLateSlot_result hy h

/-- Behind what expands nothing, an element leads if only texts stand before it. -/
theorem leadDisplaces_append (hleft : ∀ t ∈ left, t.content.expansions s = [])
    (hu : u.content.isElement) : leadDisplaces s (left ++ u :: right) =
      ((left.all fun t => !t.content.isElement) &&
        displacedBy s (u.content.expansions s).length right) := by
  induction left with
  | nil => simp [leadDisplaces, hu]
  | cons t left ih =>
      have hrest := ih fun t' ht' => hleft t' (by simp [ht'])
      rw [List.cons_append, leadDisplaces, List.all_cons, hrest, hleft t (by simp)]
      cases t.content.isElement <;> simp [displacedBy]

/-- Without a context nothing is displaced. -/
theorem displaces_eq_false (h : ∀ e ∈ t.elements, e.2.name? ≠ some "camelContext") :
    t.displaces s = false := by
  induction t with
  | node id c children ih =>
      cases hc : c.isElement with
      | false => rw [displaces, hc, Bool.false_and]
      | true =>
          rw [elements_of_isElement hc] at h
          have hname : c.name? ≠ some "camelContext" := h (id, c) (by simp)
          have hchildren : children.any (displaces s) = false := by
            rw [List.any_eq_false]
            intro t ht
            rw [Bool.not_eq_true]
            apply ih t ht
            intro e he
            exact h e (List.mem_cons_of_mem _ (List.mem_flatMap.mpr ⟨t, ht, he⟩))
          rw [displaces_node s hc, hchildren]
          simp [hname]

theorem leadDisplaces_eq_false (h : ∀ e ∈ ts.flatMap elements, e.2.expansions s = []) :
    leadDisplaces s ts = false := by
  induction ts with
  | nil => rfl
  | cons t ts ih =>
      rw [leadDisplaces]
      split
      · next ht =>
        have hnone : t.content.expansions s = [] := by
          refine h (t.id, t.content) ?_
          rw [List.flatMap_cons, elements_eq_cons ht]
          simp
        rw [hnone]
        rfl
      · exact ih fun e he => h e (by simp [he])

/-- Where nothing is expanded, nothing is displaced. -/
theorem displaces_eq_false_of_expansions (h : ∀ e ∈ t.elementsBelow, e.2.expansions s = []) :
    t.displaces s = false := by
  induction t with
  | node id c children ih =>
      cases hc : c.isElement with
      | false => rw [displaces, hc, Bool.false_and]
      | true =>
          have hbelow : ∀ t ∈ children, t.content.isElement →
              ∀ e ∈ t.elementsBelow, e.2.expansions s = [] := by
            intro t ht helement e he
            refine h e (List.mem_flatMap.mpr ⟨t, ht, ?_⟩)
            rw [elements_eq_cons helement]
            exact List.mem_cons_of_mem _ he
          have hroutes : children.any (routeDisplaces s) = false := by
            rw [List.any_eq_false]
            intro t ht
            rw [Bool.not_eq_true, routeDisplaces, Bool.and_eq_false_imp, beq_iff_eq]
            intro hname
            exact leadDisplaces_eq_false (hbelow t ht (Content.isElement_of_name hname))
          have hchildren : children.any (displaces s) = false := by
            rw [List.any_eq_false]
            intro t ht
            rw [Bool.not_eq_true]
            cases ht' : t.content.isElement with
            | true => exact ih t ht (hbelow t ht ht')
            | false => rw [← t.eta, displaces, ht', Bool.false_and]
          rw [displaces_node s hc, hroutes, hchildren, Bool.and_false, Bool.or_false]

/-! ## Around a place -/

/-- What follows a consumer is put between other trees, or around it. -/
theorem displaces_fill {f : Frame} (hf : f.content.isElement) :
    (f.fill [u]).displaces s = (f.content.name? == some "camelContext" &&
      (f.left.any (routeDisplaces s) || u.routeDisplaces s || f.right.any (routeDisplaces s)) ||
        (f.left.any (displaces s) || u.displaces s || f.right.any (displaces s))) := by
  rw [Frame.fill, displaces_node s hf]
  simp [Bool.or_assoc]

end Placed

/-- Before a place nothing is expanded, and no text encloses it. -/
structure Ready (s : Snapshot) (fs : List Frame) : Prop where
  isOpen : Open fs
  left : ∀ f ∈ fs, ∀ t ∈ f.left, t.content.expansions s = []

namespace Ready

open Placed

variable {s : Snapshot} {f g : Frame} {fs : List Frame} {u v : Placed} {right : List Placed}

theorem tail (h : Ready s (f :: fs)) : Ready s fs :=
  ⟨fun g hg => h.isOpen g (List.mem_cons_of_mem f hg),
    fun g hg => h.left g (List.mem_cons_of_mem f hg)⟩

theorem withRight (h : Ready s (f :: fs)) (right : List Placed) :
    Ready s (⟨f.id, f.content, f.left, right⟩ :: fs) := by
  constructor
  · intro g hg
    rcases List.mem_cons.mp hg with rfl | hg
    · exact h.isOpen f (by simp)
    · exact h.isOpen g (by simp [hg])
  · intro g hg
    rcases List.mem_cons.mp hg with rfl | hg
    · exact h.left f (by simp)
    · exact h.left g (by simp [hg])

theorem addAtEnd (h : Ready s fs) (bs : List Placed) : Ready s (addAtEnd bs fs) := by
  constructor
  · exact open_addAtEnd h.isOpen bs
  · intro f hf
    obtain ⟨g, hg, -, hleft⟩ := exists_of_mem_addAtEnd hf
    rw [hleft]
    exact h.left g hg

/-- What stands at a place decides through its top, its own verdict, and the one of a
route right below a context. -/
theorem displaces_plug_congr (h : Ready s fs) (hu : u.content.isElement)
    (hcontent : v.content = u.content) (hdisplaces : v.displaces s = u.displaces s)
    (hroute : ∀ g ∈ fs.head?, g.content.name? = some "camelContext" →
      v.routeDisplaces s = u.routeDisplaces s) :
    (plug fs v).displaces s = (plug fs u).displaces s := by
  induction fs generalizing u v with
  | nil => exact hdisplaces
  | cons f fs ih =>
      have hf : f.content.isElement := h.isOpen f (by simp)
      refine ih h.tail (u := f.fill [u]) (v := f.fill [v]) hf rfl ?_ fun g hg hname => ?_
      · rw [displaces_fill hf, displaces_fill hf, hdisplaces]
        by_cases hname : f.content.name? = some "camelContext"
        · rw [hroute f (by simp) hname]
        · rw [beq_eq_false_iff_ne.mpr hname, Bool.false_and, Bool.false_and]
      · have hleft := h.left f (by simp)
        have hlead : leadDisplaces s (f.left ++ v :: f.right) =
            leadDisplaces s (f.left ++ u :: f.right) := by
          rw [leadDisplaces_append hleft (hcontent ▸ hu), leadDisplaces_append hleft hu, hcontent]
        simp [routeDisplaces, Frame.fill, hlead]

/-- A verdict carries over from a place to the top. -/
theorem displaces_plug (h : Open fs) (hu : u.displaces s = true) :
    (plug fs u).displaces s = true := by
  induction fs generalizing u with
  | nil => exact hu
  | cons f fs ih =>
      have hf : f.content.isElement := h f (by simp)
      apply ih (fun g hg => h g (by simp [hg]))
      rw [displaces_fill hf, hu]
      simp

/-- The verdict on a route whose first element stands at a place. -/
theorem routeDisplaces_fill (h : Ready s (f :: fs)) (hu : u.content.isElement) :
    (f.fill [u]).routeDisplaces s = (f.content.name? == some "route" &&
      ((f.left.all fun t => !t.content.isElement) &&
        displacedBy s (u.content.expansions s).length f.right)) := by
  have hlead : leadDisplaces s (f.left ++ u :: f.right) = _ :=
    leadDisplaces_append (h.left f (by simp)) hu
  simp [routeDisplaces, Frame.fill, hlead]

/-- An action is displaced where the consumer that leads a route displaces it. -/
theorem displaces_of_leads (h : Ready s (f :: fs)) (hu : u.content.isElement)
    (hleads : leads (f :: fs) = true)
    (hdisplaced : displacedBy s (u.content.expansions s).length f.right = true) :
    (plug (f :: fs) u).displaces s = true := by
  cases fs with
  | nil => simp [leads] at hleads
  | cons g fs =>
      simp only [leads, Bool.and_eq_true, beq_iff_eq] at hleads
      obtain ⟨⟨hroute, hcontext⟩, hleft⟩ := hleads
      have hg : g.content.isElement := h.isOpen g (by simp)
      have hfill : (f.fill [u]).routeDisplaces s = true := by
        rw [h.routeDisplaces_fill hu, hroute, hleft, hdisplaced]
        rfl
      apply displaces_plug h.tail.tail.isOpen
      rw [displaces_fill hg, hfill, hcontext]
      simp

/-- A consumer that leads no route has no part in the verdict. -/
theorem displaces_aside (h : Ready s (f :: fs)) (hleads : leads (f :: fs) = false)
    (hu : u.content.isElement) (hv : v.content.isElement)
    (hroute : v.routeDisplaces s = u.routeDisplaces s)
    (hdisplaces : v.displaces s = u.displaces s) :
    (plug (f :: fs) v).displaces s = (plug (f :: fs) u).displaces s := by
  have hf : f.content.isElement := h.isOpen f (by simp)
  refine displaces_plug_congr h.tail (u := f.fill [u]) (v := f.fill [v]) hf rfl ?_
    fun g hg hname => ?_
  · rw [displaces_fill hf, displaces_fill hf, hroute, hdisplaces]
  · obtain ⟨fs, rfl⟩ : ∃ fs', fs = g :: fs' := by
      cases fs with
      | nil => simp at hg
      | cons k fs =>
          rw [List.head?_cons, Option.mem_some_iff] at hg
          exact ⟨fs, by rw [hg]⟩
    have hnot : ∀ k : Nat, (f.content.name? == some "route" &&
        ((f.left.all fun t => !t.content.isElement) && displacedBy s k f.right)) = false := by
      intro k
      simp only [leads, hname, beq_self_eq_true, Bool.and_true] at hleads
      rw [← Bool.and_assoc, hleads, Bool.false_and]
    rw [h.routeDisplaces_fill hu, h.routeDisplaces_fill hv, hnot, hnot]

/-- A consumer that leads a route but displaces nothing has no part in the verdict. -/
theorem displaces_quiet (h : Ready s (f :: fs)) (hleads : leads (f :: fs) = true)
    (hu : u.content.isElement) (hv : v.content.isElement)
    (hbefore : displacedBy s (u.content.expansions s).length f.right = false)
    (hafter : displacedBy s (v.content.expansions s).length right = false)
    (hdisplaces : v.displaces s = u.displaces s)
    (hright : right.any (displaces s) = f.right.any (displaces s)) :
    (plug (⟨f.id, f.content, f.left, right⟩ :: fs) v).displaces s =
      (plug (f :: fs) u).displaces s := by
  have hf : f.content.isElement := h.isOpen f (by simp)
  have hname : f.content.name? = some "route" := by
    cases fs with
    | nil => simp [leads] at hleads
    | cons g fs =>
        simp only [leads, Bool.and_eq_true, beq_iff_eq] at hleads
        exact hleads.1.1
  refine displaces_plug_congr h.tail (u := f.fill [u])
    (v := Frame.fill ⟨f.id, f.content, f.left, right⟩ [v]) hf rfl ?_ fun g hg hcontext => ?_
  · have hcontext : (f.content.name? == some "camelContext") = false := by
      rw [hname]
      decide
    rw [displaces_fill hf, displaces_fill (f := ⟨f.id, f.content, f.left, right⟩) hf, hcontext,
      Bool.false_and, Bool.false_and, hdisplaces, hright]
  · rw [h.routeDisplaces_fill hu, (h.withRight right).routeDisplaces_fill hv, hbefore, hafter]

end Ready

/-! ## What a template adds -/

section Templates

open Placed

variable {s : Snapshot} {f : Frame} {ts limit actions sender next : List Placed}

theorem any_displaces_of_isInert (h : ∀ e ∈ ts.flatMap nodes, e.2.isInert) :
    ts.any (displaces s) = false := by
  rw [List.any_eq_false]
  intro t ht
  rw [Bool.not_eq_true]
  apply displaces_eq_false
  intro e he
  have hmem : e ∈ ts.flatMap nodes := List.mem_flatMap.mpr ⟨t, ht, t.elements_sublist.subset he⟩
  exact (Content.isPlain_of_isInert (h e hmem)).context

theorem Frame.displaces_fill_of_isInert (h : f.isInert) :
    (f.fill ts).displaces s = ts.any (displaces s) := by
  have hparts : ∀ e ∈ f.parts, e.2.isInert := fun e he => Frame.isInert_of_mem h he
  have hleft : f.left.any (displaces s) = false :=
    any_displaces_of_isInert fun e he => hparts e (by simp [Frame.parts, he])
  have hright : f.right.any (displaces s) = false :=
    any_displaces_of_isInert fun e he => hparts e (by simp [Frame.parts, he])
  have hcontext : (f.content.name? == some "camelContext") = false := by
    have hinert := hparts (f.id, f.content) (by simp [Frame.parts])
    exact beq_eq_false_iff_ne.mpr (Content.isPlain_of_isInert hinert).context
  have hf : f.content.isElement := by
    simp only [Frame.isInert, Bool.and_eq_true] at h
    exact h.1
  rw [Frame.fill, displaces_node s hf, hcontext, Bool.false_and, Bool.false_or, List.any_append,
    List.any_append, hleft, hright, Bool.false_or, Bool.or_false]

theorem Ending.displaces_fill {ending : Ending} (h : ∀ f ∈ ending.frames, f.isInert) :
    (ending.fill sender next).displaces s =
      (sender.any (displaces s) || (ending.sendsOn && next.any (displaces s))) := by
  cases ending with
  | back f =>
      have hf := h f (by simp [frames])
      simp [fill, sendsOn, Frame.displaces_fill_of_isInert hf]
  | backAndOn both first f second g =>
      simp only [frames, List.forall_mem_cons] at h
      obtain ⟨hboth, hfirst, hf, hsecond, hg, -⟩ := h
      simp [fill, sendsOn, Frame.displaces_fill_of_isInert, hboth, hfirst, hf, hsecond, hg]

theorem Layout.any_displaces_fill {l : Layout} (h : l.isInert) :
    (l.fill limit actions sender next).any (displaces s) =
      (limit.any (displaces s) || actions.any (displaces s) || sender.any (displaces s) ||
        (l.ending.sendsOn && next.any (displaces s))) := by
  simp only [isInert, Bool.and_eq_true, List.all_eq_true, frames, List.cons_append,
    List.nil_append, List.forall_mem_cons] at h
  obtain ⟨⟨-, hstart⟩, hlimit, hbatch, hattempt, hending⟩ := h
  have hnone : [l.start].any (displaces s) = false :=
    any_displaces_of_isInert fun e he => hstart e (by simpa using he)
  rw [List.any_cons, List.any_nil, Bool.or_false] at hnone
  simp [fill, hnone, Frame.displaces_fill_of_isInert, hlimit, hbatch, hattempt,
    Ending.displaces_fill hending, Bool.or_assoc]

/-- A template leaves the verdict on what moves into it. -/
theorem Expansion.any_displaces_result {y : Expansion} {low maxRetry : Nat} {uri : String}
    {behind : List Placed} (hy : y.Fits low (!(comesNext s behind).isEmpty))
    (h : hasLateSlot (contained s behind) = false) :
    (y.result s maxRetry uri behind).any (displaces s) = behind.any (displaces s) := by
  have hlimit : (Placed.number y.limitAt (BatchRetry.constant (toString maxRetry))).displaces s =
      false := by
    apply displaces_eq_false
    simp [BatchRetry.constant, Tree.element, Tree.text, Placed.number, Placed.numberAll,
      Content.name?]
  have hsender : (Placed.number y.senderAt (BatchRetry.sender uri)).displaces s = false := by
    apply displaces_eq_false
    simp [BatchRetry.sender, Tree.element, Placed.number, Placed.numberAll, Content.name?,
      Marker.tagName]
  have hnext : (y.layout.ending.sendsOn && (comesNext s behind).any (displaces s)) =
      (comesNext s behind).any (displaces s) := by
    rw [hy.sendsOn]
    cases comesNext s behind <;> rfl
  rw [result_of_quiet h, Layout.any_displaces_fill hy.isInert, hnext]
  simp only [List.any_cons, List.any_nil, hlimit, hsender, Bool.or_false, Bool.false_or]
  rw [← List.any_append, contained_append_comesNext]

/-- Beans at the end of the top leave the verdict. -/
theorem displaces_foldl_append {low : Nat} {bs : List Placed}
    (hbs : ∀ b ∈ bs, Placed.IsBean low b) {t : Placed} (ht : t.content.isElement) :
    (bs.foldl Placed.append t).displaces s = t.displaces s := by
  refine foldl_append_eq (f := displaces s) (fun b hb t ht => ?_) ht
  obtain ⟨n, id, className, -, rfl⟩ := hbs b hb
  have hbean : (beanContent id className).isElement := rfl
  have hname : (beanContent id className).name? = some beanElement := rfl
  rw [Placed.append, displaces_node s ht]
  conv_rhs => rw [← t.eta, displaces_node s ht]
  simp [displaces_node s hbean, routeDisplaces, hname, beanElement]

end Templates

end Route

end RouteCompiler
