import Mathlib.Data.List.Perm.Subperm

/-!
# Segments of doubly linked lists

A segment is a stretch of a doubly linked list: the nodes that the `next` pointers
visit from its first node, whose `prev` pointers lead back. It is described by its
entries, the addresses and data of its nodes in order, and by the four pointers at
its ends. Segments split and join like their entries, do not look at other nodes, and
the nodes at their ends can be linked to others; unlinking a node and inserting one
are put together from these rules.
-/

namespace QuashLabs.Linked

universe u

variable {α : Type u}

/-- A node of a doubly linked list; `none` is the null pointer. -/
structure Node (α : Type u) where
  data : α
  next : Option Nat
  prev : Option Nat
  deriving Repr, DecidableEq

/-- The nodes of a program, each at the index that is its address. -/
abbrev Store (α : Type u) := List (Node α)

namespace Store

/-- `p->next = next`, without effect on a null pointer. -/
def linkNext (nodes : Store α) (p next : Option Nat) : Store α :=
  match p with
  | none => nodes
  | some a => nodes.modify a fun node => { node with next := next }

/-- `p->prev = prev`, without effect on a null pointer. -/
def linkPrev (nodes : Store α) (p prev : Option Nat) : Store α :=
  match p with
  | none => nodes
  | some a => nodes.modify a fun node => { node with prev := prev }

/-- The data of the first `bound` nodes that the `next` pointers visit. -/
def visit (nodes : Store α) : (bound : Nat) → (first : Option Nat) → List α
  | 0, _ => []
  | _ + 1, none => []
  | bound + 1, some a =>
      match nodes[a]? with
      | none => []
      | some node => node.data :: visit nodes bound node.next

variable {nodes : Store α} {p q : Option Nat} {a : Nat}

@[simp]
theorem linkNext_none (nodes : Store α) (q : Option Nat) : nodes.linkNext none q = nodes := rfl

@[simp]
theorem linkPrev_none (nodes : Store α) (q : Option Nat) : nodes.linkPrev none q = nodes := rfl

/-- What a store holds once the `next` pointer of one node is set. -/
theorem getElem?_linkNext (nodes : Store α) (p q : Option Nat) (a : Nat) :
    (nodes.linkNext p q)[a]? =
      if p = some a then nodes[a]?.map fun node => { node with next := q } else nodes[a]? := by
  cases p with
  | none => simp
  | some b => by_cases same : b = a <;> simp [linkNext, same]

/-- What a store holds once the `prev` pointer of one node is set. -/
theorem getElem?_linkPrev (nodes : Store α) (p q : Option Nat) (a : Nat) :
    (nodes.linkPrev p q)[a]? =
      if p = some a then nodes[a]?.map fun node => { node with prev := q } else nodes[a]? := by
  cases p with
  | none => simp
  | some b => by_cases same : b = a <;> simp [linkPrev, same]

theorem getElem?_linkNext_of_ne (other : p ≠ some a) : (nodes.linkNext p q)[a]? = nodes[a]? := by
  rw [getElem?_linkNext, if_neg other]

theorem getElem?_linkPrev_of_ne (other : p ≠ some a) : (nodes.linkPrev p q)[a]? = nodes[a]? := by
  rw [getElem?_linkPrev, if_neg other]

/-- Setting a `next` pointer and setting a `prev` pointer commute. -/
theorem linkPrev_linkNext (nodes : Store α) (p q p' q' : Option Nat) :
    (nodes.linkNext p q).linkPrev p' q' = (nodes.linkPrev p' q').linkNext p q := by
  refine List.ext_getElem? fun a => ?_
  rw [getElem?_linkPrev, getElem?_linkNext, getElem?_linkNext, getElem?_linkPrev]
  split <;> split <;> simp [Function.comp_def]

@[simp]
theorem length_linkNext (nodes : Store α) (p q : Option Nat) :
    (nodes.linkNext p q).length = nodes.length := by
  cases p <;> simp [linkNext]

@[simp]
theorem length_linkPrev (nodes : Store α) (p q : Option Nat) :
    (nodes.linkPrev p q).length = nodes.length := by
  cases p <;> simp [linkPrev]

end Store

/-- From `first`, whose predecessor is `prev`, the `next` pointers visit the entries up
to `last`, whose successor is `next`, and the `prev` pointers lead back. -/
def Segment (nodes : Store α) :
    (prev first : Option Nat) → List (Nat × α) → (last next : Option Nat) → Prop
  | prev, first, [], last, next => first = next ∧ last = prev
  | prev, first, (a, x) :: entries, last, next =>
      first = some a ∧ ∃ following, nodes[a]? = some ⟨x, following, prev⟩ ∧
        Segment nodes (some a) following entries last next

namespace Segment

variable {nodes nodes' : Store α} {prev first last next p q : Option Nat}
variable {entries before after : List (Nat × α)} {a : Nat} {x : α}

theorem nil : Segment nodes prev first [] last next ↔ first = next ∧ last = prev := Iff.rfl

theorem cons : Segment nodes prev first ((a, x) :: entries) last next ↔
    first = some a ∧ ∃ following, nodes[a]? = some ⟨x, following, prev⟩ ∧
      Segment nodes (some a) following entries last next := Iff.rfl

/-- Segments split and join where their entries do. -/
theorem append : Segment nodes prev first (before ++ after) last next ↔
    ∃ p q, Segment nodes prev first before p q ∧ Segment nodes p q after last next := by
  induction before generalizing prev first with
  | nil =>
      constructor
      · exact fun segment => ⟨prev, first, ⟨rfl, rfl⟩, segment⟩
      · rintro ⟨p, q, ⟨rfl, rfl⟩, segment⟩
        exact segment
  | cons entry before ih =>
      constructor
      · rintro ⟨atFirst, following, stored, rest⟩
        rcases ih.mp rest with ⟨p, q, front, back⟩
        exact ⟨p, q, ⟨atFirst, following, stored, front⟩, back⟩
      · rintro ⟨p, q, ⟨atFirst, following, stored, front⟩, back⟩
        exact ⟨atFirst, following, stored, ih.mpr ⟨p, q, front, back⟩⟩

/-- A segment looks at the nodes of its entries only. -/
theorem frame (segment : Segment nodes prev first entries last next)
    (same : ∀ a ∈ entries.map Prod.fst, nodes'[a]? = nodes[a]?) :
    Segment nodes' prev first entries last next := by
  induction entries generalizing prev first with
  | nil => exact segment
  | cons entry entries ih =>
      rcases segment with ⟨atFirst, following, stored, rest⟩
      rw [List.map_cons, List.forall_mem_cons] at same
      exact ⟨atFirst, following, same.1.trans stored, ih rest same.2⟩

/-- The addresses of a segment are those of nodes. -/
theorem lt_length (segment : Segment nodes prev first entries last next) :
    ∀ a ∈ entries.map Prod.fst, a < nodes.length := by
  induction entries generalizing prev first with
  | nil => simp
  | cons entry entries ih =>
      rcases segment with ⟨-, following, stored, rest⟩
      rw [List.map_cons, List.forall_mem_cons]
      exact ⟨(List.getElem?_eq_some_iff.mp stored).1, ih rest⟩

/-- The nodes determine the segment that leads from a pointer to the null pointer. -/
theorem unique {entries' : List (Nat × α)} {prev' last' : Option Nat}
    (segment : Segment nodes prev first entries last none)
    (segment' : Segment nodes prev' first entries' last' none) : entries' = entries := by
  induction entries generalizing prev prev' first entries' with
  | nil =>
      cases entries' with
      | nil => rfl
      | cons entry' entries' => exact absurd (segment.1.symm.trans segment'.1) (by simp)
  | cons entry entries ih =>
      cases entries' with
      | nil => exact absurd (segment'.1.symm.trans segment.1) (by simp)
      | cons entry' entries' =>
          rcases entry, entry' with ⟨⟨a, x⟩, ⟨a', x'⟩⟩
          rcases segment with ⟨rfl, following, stored, rest⟩
          rcases segment' with ⟨same, following', stored', rest'⟩
          obtain rfl : a = a' := Option.some.inj same
          rw [stored, Option.some.injEq, Node.mk.injEq] at stored'
          rcases stored' with ⟨rfl, rfl, -⟩
          rw [ih rest rest']

/-- A list that ends visits no node twice: the rest of the list behind both visits
would be the same. -/
theorem nodup (segment : Segment nodes prev first entries last none) :
    (entries.map Prod.fst).Nodup := by
  induction entries generalizing prev first with
  | nil => exact List.nodup_nil
  | cons entry entries ih =>
      rcases entry with ⟨a, x⟩
      rw [List.map_cons, List.nodup_cons]
      rcases id segment with ⟨atFirst, following, stored, rest⟩
      refine ⟨fun member => ?_, ih rest⟩
      rcases List.mem_map.mp member with ⟨⟨b, y⟩, again, rfl⟩
      rcases List.append_of_mem again with ⟨before, after, rfl⟩
      rcases append.mp rest with ⟨p, q, -, -, back⟩
      have same := segment.unique (cons.mpr ⟨atFirst, back⟩)
      have lengths := congrArg List.length same
      simp at lengths
      omega

/-- A list that ends has at most as many entries as there are nodes. -/
theorem length_le (segment : Segment nodes prev first entries last none) :
    entries.length ≤ nodes.length := by
  have inside : entries.map Prod.fst ⊆ List.range nodes.length := fun a member =>
    List.mem_range.mpr (segment.lt_length a member)
  simpa using (List.subperm_of_subset segment.nodup inside).length_le

/-- The `next` pointers of a list that ends visit the data of its entries. -/
theorem visit_eq (segment : Segment nodes prev first entries last none) {bound : Nat}
    (enough : entries.length ≤ bound) : nodes.visit bound first = entries.map Prod.snd := by
  induction entries generalizing prev first bound with
  | nil =>
      obtain ⟨rfl, -⟩ := segment
      cases bound <;> rfl
  | cons entry entries ih =>
      rcases segment with ⟨rfl, following, stored, rest⟩
      cases bound with
      | zero => simp at enough
      | succ bound =>
          rw [List.length_cons] at enough
          simp only [Store.visit, stored, List.map_cons]
          rw [ih rest (by omega)]

/-- The last pointer is that of the last entry. -/
theorem last_eq (segment : Segment nodes prev first (entries ++ [(a, x)]) last next) :
    last = some a := by
  rcases append.mp segment with ⟨p, q, -, -, following, -, -, atLast⟩
  exact atLast

theorem last_mem (segment : Segment nodes none first entries last next)
    (atLast : last = some a) : a ∈ entries.map Prod.fst := by
  rcases List.eq_nil_or_concat' entries with rfl | ⟨front, ⟨b, y⟩, rfl⟩
  · exact absurd (atLast.symm.trans segment.2) (by simp)
  · rw [segment.last_eq, Option.some.injEq] at atLast
    simp [atLast]

theorem first_mem (segment : Segment nodes prev first entries last none)
    (atFirst : first = some a) : a ∈ entries.map Prod.fst := by
  cases entries with
  | nil => exact absurd (atFirst.symm.trans segment.1) (by simp)
  | cons entry entries =>
      have same : entry.1 = a := Option.some.inj (segment.1.symm.trans atFirst)
      simp [same]

theorem last_lt_length (segment : Segment nodes none first entries last next) :
    ∀ b, last = some b → b < nodes.length :=
  fun b atLast => segment.lt_length b (segment.last_mem atLast)

theorem first_lt_length (segment : Segment nodes prev first entries last none) :
    ∀ b, first = some b → b < nodes.length :=
  fun b atFirst => segment.lt_length b (segment.first_mem atFirst)

/-- A list without a first node has no entries. -/
theorem eq_nil (segment : Segment nodes prev first entries last next)
    (empty : first = none) : entries = [] := by
  cases entries with
  | nil => rfl
  | cons entry entries => exact absurd (segment.1.symm.trans empty) (by simp)

/-- A segment with entries has a first node. -/
theorem first_ne_none (segment : Segment nodes prev first entries last next)
    (nonempty : entries ≠ []) : first ≠ none :=
  fun empty => nonempty (segment.eq_nil empty)

/-- A list without a last node starts where it ends. -/
theorem first_eq (segment : Segment nodes none first entries last next)
    (empty : last = none) : first = next := by
  rcases List.eq_nil_or_concat' entries with rfl | ⟨front, ⟨b, y⟩, rfl⟩
  · exact segment.1
  · exact absurd (segment.last_eq.symm.trans empty) (by simp)

/-! ## Linking the ends -/

/-- Linking the last node of a list to `q`. An empty list then starts at `q`. -/
theorem linkNext (segment : Segment nodes none first entries last next)
    (nodup : (entries.map Prod.fst).Nodup) (q : Option Nat) :
    Segment (nodes.linkNext last q) none (if last = none then q else first) entries last q := by
  rcases List.eq_nil_or_concat' entries with rfl | ⟨front, ⟨b, y⟩, rfl⟩
  · obtain rfl : last = none := segment.2
    exact ⟨if_pos rfl, rfl⟩
  · obtain rfl := segment.last_eq
    rcases append.mp segment with ⟨p, mid, start, rfl, following, stored, -, -⟩
    have others : b ∉ front.map Prod.fst := by
      rw [List.map_append, List.nodup_append] at nodup
      intro member
      exact nodup.2.2 b member b (by simp) rfl
    rw [if_neg (by simp)]
    refine append.mpr ⟨p, some b, start.frame fun a member => ?_, rfl, q, ?_, rfl, rfl⟩
    · refine Store.getElem?_linkNext_of_ne fun same => others ?_
      rwa [Option.some.inj same]
    · simp [Store.getElem?_linkNext, stored]

/-- Linking the first node of a list to `p`. An empty list then ends at `p`. -/
theorem linkPrev (segment : Segment nodes prev first entries last none)
    (nodup : (entries.map Prod.fst).Nodup) (p : Option Nat) :
    Segment (nodes.linkPrev first p) p first entries (if first = none then p else last) none := by
  cases entries with
  | nil =>
      obtain rfl : first = none := segment.1
      exact ⟨rfl, if_pos rfl⟩
  | cons entry entries =>
      rcases segment with ⟨rfl, following, stored, rest⟩
      rw [List.map_cons, List.nodup_cons] at nodup
      rw [if_neg (by simp)]
      refine ⟨rfl, following, by simp [Store.getElem?_linkPrev, stored],
        rest.frame fun a member => ?_⟩
      refine Store.getElem?_linkPrev_of_ne fun same => nodup.1 ?_
      rwa [Option.some.inj same]

/-! ## Unlinking and inserting -/

/-- A list with one node unlinked: its neighbours are linked to each other. -/
theorem unlink (front : Segment nodes none first before p (some a))
    (back : Segment nodes p (some a) ((a, x) :: after) last none)
    (apart : ((before ++ (a, x) :: after).map Prod.fst).Nodup) :
    ∃ q, nodes[a]? = some ⟨x, q, p⟩ ∧
      ((nodes.linkNext p q).linkPrev q p)[a]? = nodes[a]? ∧
      Segment ((nodes.linkNext p q).linkPrev q p) none (if p = none then q else first) before p q ∧
      Segment ((nodes.linkNext p q).linkPrev q p) p q after
        (if q = none then p else last) none := by
  rcases back with ⟨-, q, stored, back⟩
  rw [List.map_append, List.map_cons, List.nodup_append, List.nodup_cons] at apart
  rcases apart with ⟨frontNodup, ⟨alone, backNodup⟩, apart⟩
  have keptBack : Segment (nodes.linkNext p q) (some a) q after last none := by
    refine back.frame fun b member => Store.getElem?_linkNext_of_ne fun same => ?_
    exact apart b (front.last_mem same) b (List.mem_cons_of_mem _ member) rfl
  refine ⟨q, stored, ?_, (front.linkNext frontNodup q).frame ?_, keptBack.linkPrev backNodup p⟩
  · rw [Store.getElem?_linkPrev_of_ne fun same => alone (back.first_mem same),
      Store.getElem?_linkNext_of_ne fun same => apart a (front.last_mem same) a (by simp) rfl]
  · intro b member
    refine Store.getElem?_linkPrev_of_ne fun same => ?_
    exact apart b member b (List.mem_cons_of_mem _ (back.first_mem same)) rfl

/-- A list with one node inserted that is linked to its neighbours. The store may
differ from the old one at the new node. -/
theorem insert (front : Segment nodes none first before p q)
    (back : Segment nodes p q after last none)
    (apart : ((before ++ after).map Prod.fst).Nodup)
    (fresh : a ∉ (before ++ after).map Prod.fst) (stored : nodes'[a]? = some ⟨x, q, p⟩)
    (others : ∀ b ≠ a, nodes'[b]? = ((nodes.linkNext p (some a)).linkPrev q (some a))[b]?) :
    Segment nodes' none (if p = none then some a else first) (before ++ (a, x) :: after)
      (if q = none then some a else last) none := by
  rw [List.map_append] at apart fresh
  rw [List.nodup_append] at apart
  rw [List.mem_append, not_or] at fresh
  rcases apart with ⟨frontNodup, backNodup, apart⟩
  have keptBack : Segment (nodes.linkNext p (some a)) p q after last none := by
    refine back.frame fun b member => Store.getElem?_linkNext_of_ne fun same => ?_
    exact apart b (front.last_mem same) b member rfl
  have linkedFront := front.linkNext frontNodup (some a)
  have linkedBack := keptBack.linkPrev backNodup (some a)
  refine append.mpr ⟨p, some a, linkedFront.frame ?_, rfl, q, stored, linkedBack.frame ?_⟩
  · intro b member
    have other : b ≠ a := fun same => fresh.1 (same ▸ member)
    rw [others b other]
    refine Store.getElem?_linkPrev_of_ne fun same => ?_
    exact apart b member b (back.first_mem same) rfl
  · intro b member
    have other : b ≠ a := fun same => fresh.2 (same ▸ member)
    exact others b other

end Segment

end QuashLabs.Linked
