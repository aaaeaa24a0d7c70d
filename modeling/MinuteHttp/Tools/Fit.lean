import MinuteHttp.Tools.PatriciaBuild
import Mathlib.Order.Bounds.Basic
import Mathlib.Data.List.Nodup

/-!
# Fitting the trie into one table (`walk` and `fit`, `tools/patricia-build.c`)

The children of a node go to one block of the table, each at the offset of the block plus its index. `fit` tries
the nodes in every order and places each of them at the first offset at which no slot is taken (`FirstFit`). It
gives up an order as soon as that cannot be smaller than the best one so far, and all of them on SIGINT. What it
returns is the layout of an order (`fit_firstFit`), and if nobody has stopped it no order has a smaller one
(`fit_le`).
-/

namespace MinuteHttp

/-- `MAXSZ` -/
def maxsz : Nat := 64

/-- A `node *`, as the indices on the way from the root, and the node it points to. -/
structure NodePtr where
  path : List Nat
  node : Node

/-- `n->tbl[j]` -/
def NodePtr.child (n : NodePtr) (j : Nat) : Option NodePtr := (n.node.tbl j).map fun c => ⟨n.path ++ [j], c⟩

mutual
/-- `walk`: the list it appends for a node. -/
def walk (path : List Nat) : Node → List NodePtr
  | ⟨elem, limit, mask, term, tbl⟩ =>
    ⟨path, ⟨elem, limit, mask, term, tbl⟩⟩ ::
      (List.range limit).flatMap fun i => walkChild (path ++ [i]) (tbl i)

/-- `walk(root->tbl[i], ..)`, if there is a child. -/
def walkChild (path : List Nat) : Option Node → List NodePtr
  | none => []
  | some n => walk path n
end

/-- `full[i]->next = i`, as the outermost call leaves it, which goes over the whole list last. -/
def nextOf (list : List NodePtr) (path : List Nat) : Nat := list.findIdx fun n => n.path = path

/-- `full[i]->tbl[j]->check = i`; nobody sets that of the root. -/
def checkOf (list : List NodePtr) (path : List Nat) : Nat :=
  if path = [] then 0 else nextOf list path.dropLast

/-- `tblentry`, one with a node. -/
structure TblEntry where
  node : List Nat
  offset : Nat
  deriving DecidableEq

/-- `table`, `mask` and `lo` of `fit`: what has been placed. -/
structure Layout where
  table : Nat → Option TblEntry
  mask : BitVec 64
  lo : Nat

/-- Nothing. -/
def Layout.blank : Layout := ⟨fun _ => none, 0, 0⟩

/-- `ntbl`, `mask | (n->mask<<o)` and `nlow`: the children of `n` at the offset `o`. -/
def Layout.place (y : Layout) (n : NodePtr) (o : Nat) : Layout where
  table s :=
    if o ≤ s ∧ s - o < n.node.limit then
      match n.child (s - o) with
      | some c => some ⟨c.path, o⟩
      | none => y.table s
    else y.table s
  mask := y.mask ||| n.node.mask <<< o
  lo := max y.lo (tblsz + o)

/-- `for(o = 0; o + TBLSZ < limit && ! stop; ++o) if(mask & (n->mask<<o)) continue; .. break;` from `o` on, with `room`
offsets left below the limit; `stop i` is what the `i`-th reading of `stop` gives. -/
def firstOffset (stop : Nat → Bool) (mask nmask : BitVec 64) : Nat → Nat → Nat → Option Nat × Nat
  | 0, _, reads => (none, reads)
  | room + 1, o, reads =>
    if stop reads then (none, reads + 1)
    else if mask &&& nmask <<< o ≠ 0 then firstOffset stop mask nmask room (o + 1) (reads + 1)
    else (some o, reads + 1)

/-- The variables of the loop in `fit`. -/
structure Fitting where
  limit : Nat
  accepted : Bool
  empty : Bool
  mintbl : Nat → Option TblEntry
  reads : Nat

/-- The body of the loop, where `again` is the call of `fit`. -/
def fitNode (stop : Nat → Bool) (again : Layout → Nat → List (List Nat) → Nat → Nat × (Nat → Option TblEntry) × Nat)
    (y : Layout) (visited : List (List Nat)) (s : Fitting) (n : NodePtr) : Fitting :=
  if n.path ∈ visited then s
  else if n.node.limit = 0 then s
  else
    match firstOffset stop y.mask n.node.mask (s.limit - tblsz) 0 s.reads with
    | (none, reads) => { s with empty := false, reads := reads }
    | (some o, reads) =>
      match again (y.place n o) s.limit (n.path :: visited) reads with
      | (sz, ntbl, reads) =>
        if sz < s.limit then ⟨sz, true, false, ntbl, reads⟩ else { s with empty := false, reads := reads }

/-- `fit`, where `unvisited` nodes have no flag `VISITED`: it returns the limit, the table, and how often `stop` has
been read. -/
def fit (list : List NodePtr) (stop : Nat → Bool) :
    Nat → Layout → Nat → List (List Nat) → Nat → Nat × (Nat → Option TblEntry) × Nat
  | 0, y, _, _, reads => (y.lo, y.table, reads)
  | unvisited + 1, y, hi, visited, reads =>
    let s := list.foldl (fitNode stop (fit list stop unvisited) y visited) ⟨hi, false, true, fun _ => none, reads⟩
    if s.empty then (y.lo, y.table, s.reads)
    else if s.accepted then (s.limit, s.mintbl, s.reads)
    else (s.limit, y.table, s.reads)

/-! ## The list of the nodes -/

/-- The node at the end of a path. -/
def Node.at : Node → List Nat → Option Node
  | n, [] => some n
  | n, i :: p => (n.tbl i).bind fun c => c.at p

section

variable {n c : Node} {i : Nat} {p q path : List Nat} {x : NodePtr}

theorem at_concat : n.at (p ++ [i]) = (n.at p).bind fun c => c.tbl i := by
  induction p generalizing n with
  | nil =>
    rw [List.nil_append, Node.at, Node.at, Option.bind_some]
    cases n.tbl i with
    | none => rfl
    | some c => rfl
  | cons j p ih =>
    rw [List.cons_append, Node.at, Node.at]
    cases n.tbl j with
    | none => rfl
    | some c => exact ih

theorem Node.Sound.at (h : n.Sound) (hp : n.at p = some c) : c.Sound := by
  induction p generalizing n with
  | nil => exact Option.some.inj hp ▸ h
  | cons i p ih =>
    obtain ⟨d, hd, hp⟩ := Option.bind_eq_some_iff.mp hp
    exact ih (h.child hd) hp

theorem walk_eq (path : List Nat) (n : Node) :
    walk path n = ⟨path, n⟩ :: (List.range n.limit).flatMap fun i => ((n.tbl i).map (walk (path ++ [i]))).getD [] := by
  obtain ⟨elem, limit, mask, term, tbl⟩ := n
  rw [walk]
  congr 2
  funext i
  show walkChild (path ++ [i]) (tbl i) = ((tbl i).map (walk (path ++ [i]))).getD []
  cases tbl i with
  | none => rfl
  | some c => rfl

theorem walk_sub (h : x ∈ walk path n) : path <+: x.path := by
  induction n using Node.inductionOn generalizing path with
  | h n ih =>
    rw [walk_eq, List.mem_cons, List.mem_flatMap] at h
    obtain rfl | ⟨i, -, h⟩ := h
    · exact List.prefix_refl path
    · cases hc : n.tbl i with
      | none =>
        rw [hc] at h
        cases h
      | some c =>
        rw [hc] at h
        exact (List.prefix_append path [i]).trans (ih i c hc h)

theorem at_of_mem_walk (h : x ∈ walk path n) : ∃ q, x.path = path ++ q ∧ n.at q = some x.node := by
  induction n using Node.inductionOn generalizing path with
  | h n ih =>
    rw [walk_eq, List.mem_cons, List.mem_flatMap] at h
    obtain rfl | ⟨i, -, hx⟩ := h
    · exact ⟨[], (List.append_nil path).symm, rfl⟩
    · cases hc : n.tbl i with
      | none =>
        rw [hc] at hx
        cases hx
      | some c =>
        rw [hc] at hx
        obtain ⟨q, hpath, hat⟩ := ih i c hc hx
        refine ⟨i :: q, by rw [hpath, List.append_assoc]; rfl, ?_⟩
        rw [Node.at, hc]
        exact hat

/-- **The list has every node** below a node, with its path. -/
theorem mem_walk (h : n.Sound) : x ∈ walk path n ↔ ∃ q, x.path = path ++ q ∧ n.at q = some x.node := by
  refine ⟨at_of_mem_walk, ?_⟩
  rintro ⟨q, hpath, hat⟩
  induction q generalizing path n with
  | nil =>
    rw [List.append_nil] at hpath
    cases x
    cases hpath
    cases hat
    rw [walk_eq]
    exact List.mem_cons_self
  | cons i q ih =>
    obtain ⟨c, hc, hat⟩ := Option.bind_eq_some_iff.mp hat
    rw [walk_eq, List.mem_cons, List.mem_flatMap]
    refine .inr ⟨i, List.mem_range.mpr (h.shaped.limit i (by rw [hc]; rfl)), ?_⟩
    rw [hc]
    exact ih (h.child hc) (by rw [hpath, List.append_assoc]; rfl) hat

theorem nodup_walk (path : List Nat) (n : Node) : ((walk path n).map NodePtr.path).Nodup := by
  induction n using Node.inductionOn generalizing path with
  | h n ih =>
    have hsub : ∀ i, ∀ x ∈ ((n.tbl i).map (walk (path ++ [i]))).getD [], path ++ [i] <+: x.path := by
      intro i x hx
      cases hc : n.tbl i with
      | none =>
        rw [hc] at hx
        cases hx
      | some c =>
        rw [hc] at hx
        exact walk_sub hx
    rw [walk_eq, List.map_cons, List.map_flatMap, List.nodup_cons]
    refine ⟨fun h => ?_, ?_⟩
    · obtain ⟨i, -, hx⟩ := List.mem_flatMap.mp h
      obtain ⟨x, hx, rfl⟩ := List.mem_map.mp hx
      exact absurd (hsub i x hx).length_le (by simp)
    · rw [List.nodup_flatMap]
      constructor
      · intro i _
        cases hc : n.tbl i with
        | none => exact List.nodup_nil
        | some c => exact ih i c hc (path ++ [i])
      · refine List.nodup_range.imp fun {i j} hij => ?_
        intro y hi hj
        obtain ⟨x, hx, rfl⟩ := List.mem_map.mp hi
        obtain ⟨x', hx', heq⟩ := List.mem_map.mp hj
        have hpre := List.prefix_of_prefix_length_le (hsub i x hx) (heq ▸ hsub j x' hx') (by simp)
        have hsame := hpre.eq_of_length (by simp)
        exact hij (List.singleton_inj.mp (List.append_cancel_left hsame))

end

/-! ## Placing in order -/

/-- No slot is taken to which a child of the node goes at the offset. -/
def Layout.Free (y : Layout) (n : Node) (o : Nat) : Prop := y.mask &&& n.mask <<< o = 0

/-- The nodes are placed one after another, each at the first offset that is free. -/
inductive FirstFit : Layout → List NodePtr → Layout → Prop where
  | nil {y : Layout} : FirstFit y [] y
  | cons {y z : Layout} {n : NodePtr} {ns : List NodePtr} {o : Nat} :
      IsLeast {o | y.Free n.node o} o → FirstFit (y.place n o) ns z → FirstFit y (n :: ns) z

/-- The nodes that have still to be placed. -/
def unplaced (list : List NodePtr) (visited : List (List Nat)) : List NodePtr :=
  list.filter fun n => decide (n.path ∉ visited ∧ n.node.limit ≠ 0)

section

variable {list ns order : List NodePtr} {stop : Nat → Bool} {y z : Layout} {visited : List (List Nat)} {n : NodePtr}
  {s s' : Fitting} {hi limit o room reads reads' unvisited : Nat} {mask nmask : BitVec 64}
  {again : Layout → Nat → List (List Nat) → Nat → Nat × (Nat → Option TblEntry) × Nat}

theorem FirstFit.lo_le (h : FirstFit y order z) : y.lo ≤ z.lo := by
  induction h with
  | nil => exact Nat.le_refl _
  | cons _ _ ih => exact (Nat.le_max_left _ _).trans ih

theorem mem_unplaced : n ∈ unplaced list visited ↔ n ∈ list ∧ n.path ∉ visited ∧ n.node.limit ≠ 0 := by
  rw [unplaced, List.mem_filter, decide_eq_true_eq]

theorem unplaced_nodup (hnodup : (list.map NodePtr.path).Nodup) (visited : List (List Nat)) :
    (unplaced list visited).Nodup :=
  hnodup.of_map.filter _

theorem unplaced_perm (hnodup : (list.map NodePtr.path).Nodup) (hn : n ∈ unplaced list visited) :
    (unplaced list visited).Perm (n :: unplaced list (n.path :: visited)) := by
  obtain ⟨hmem, hvisited, hlimit⟩ := mem_unplaced.mp hn
  have hnot : n ∉ unplaced list (n.path :: visited) := fun h =>
    (mem_unplaced.mp h).2.1 List.mem_cons_self
  rw [List.perm_ext_iff_of_nodup (unplaced_nodup hnodup _) (List.nodup_cons.mpr ⟨hnot, unplaced_nodup hnodup _⟩)]
  intro m
  rw [List.mem_cons, mem_unplaced, mem_unplaced, List.mem_cons, not_or]
  constructor
  · rintro ⟨hm, hv, hl⟩
    by_cases heq : m.path = n.path
    · exact .inl (List.inj_on_of_nodup_map hnodup hm hmem heq)
    · exact .inr ⟨hm, ⟨heq, hv⟩, hl⟩
  · rintro (rfl | ⟨hm, ⟨-, hv⟩, hl⟩)
    · exact ⟨hmem, hvisited, hlimit⟩
    · exact ⟨hm, hv, hl⟩

/-! ### The first offset -/

theorem firstOffset_some (h : firstOffset stop mask nmask room o reads = (some limit, reads')) :
    o ≤ limit ∧ limit < o + room ∧ mask &&& nmask <<< limit = 0 ∧
      ∀ i, o ≤ i → mask &&& nmask <<< i = 0 → limit ≤ i := by
  induction room generalizing o reads with
  | zero =>
    rw [firstOffset] at h
    cases h
  | succ room ih =>
    rw [firstOffset] at h
    split_ifs at h with hstop htaken
    · cases h
    · obtain ⟨hle, hlt, hfree, hleast⟩ := ih h
      refine ⟨by omega, by omega, hfree, fun i hi hi0 => ?_⟩
      obtain rfl | hlt := Nat.eq_or_lt_of_le hi
      · exact absurd hi0 htaken
      · exact hleast i hlt hi0
    · cases h
      refine ⟨Nat.le_refl _, by omega, ?_, fun i hi _ => hi⟩
      by_contra hne
      exact htaken hne

theorem firstOffset_none (h : firstOffset (fun _ => false) mask nmask room o reads = (none, reads')) :
    ∀ i, o ≤ i → i < o + room → mask &&& nmask <<< i ≠ 0 := by
  induction room generalizing o reads with
  | zero =>
    intro i hi hlt
    omega
  | succ room ih =>
    rw [firstOffset, if_neg Bool.false_ne_true] at h
    by_cases htaken : mask &&& nmask <<< o ≠ 0
    · rw [if_pos htaken] at h
      intro i hi hlt
      obtain rfl | hi := Nat.eq_or_lt_of_le hi
      · exact htaken
      · exact ih h i hi (by omega)
    · rw [if_neg htaken] at h
      cases h

/-! ### The loop -/

/-- What the body of the loop does: nothing, at a node that is visited or has no children; or it finds no way to
place the node that is smaller than the limit; or it finds one. -/
theorem fitNode_cases (stop : Nat → Bool)
    (again : Layout → Nat → List (List Nat) → Nat → Nat × (Nat → Option TblEntry) × Nat) (y : Layout)
    (visited : List (List Nat)) (s : Fitting) (n : NodePtr) :
    ((n.path ∈ visited ∨ n.node.limit = 0) ∧ fitNode stop again y visited s n = s) ∨
      (n.path ∉ visited ∧ n.node.limit ≠ 0) ∧
        ((∃ reads, (firstOffset stop y.mask n.node.mask (s.limit - tblsz) 0 s.reads).1 = none ∧
            fitNode stop again y visited s n = { s with empty := false, reads := reads }) ∨
          ∃ o r, firstOffset stop y.mask n.node.mask (s.limit - tblsz) 0 s.reads = (some o, r) ∧
            ((∃ reads, s.limit ≤ (again (y.place n o) s.limit (n.path :: visited) r).1 ∧
                fitNode stop again y visited s n = { s with empty := false, reads := reads }) ∨
              ∃ reads, (again (y.place n o) s.limit (n.path :: visited) r).1 < s.limit ∧
                fitNode stop again y visited s n = ⟨(again (y.place n o) s.limit (n.path :: visited) r).1, true, false,
                  (again (y.place n o) s.limit (n.path :: visited) r).2.1, reads⟩)) := by
  rw [fitNode]
  by_cases hv : n.path ∈ visited
  · rw [if_pos hv]
    exact .inl ⟨.inl hv, rfl⟩
  rw [if_neg hv]
  by_cases hl : n.node.limit = 0
  · rw [if_pos hl]
    exact .inl ⟨.inr hl, rfl⟩
  rw [if_neg hl]
  refine .inr ⟨⟨hv, hl⟩, ?_⟩
  rcases hf : firstOffset stop y.mask n.node.mask (s.limit - tblsz) 0 s.reads with ⟨_ | o, r⟩
  · exact .inl ⟨r, rfl, rfl⟩
  · refine .inr ⟨o, r, rfl, ?_⟩
    rcases ha : again (y.place n o) s.limit (n.path :: visited) r with ⟨sz, ntbl, reads⟩
    by_cases hlt : sz < s.limit
    · exact .inr ⟨reads, hlt, by simp only [ha, if_pos hlt]⟩
    · exact .inl ⟨reads, Nat.le_of_not_lt hlt, by simp only [ha, if_neg hlt]⟩

theorem foldl_empty : (ns.foldl (fitNode stop again y visited) s).empty = true ↔
    s.empty = true ∧ ∀ n ∈ ns, n.path ∈ visited ∨ n.node.limit = 0 := by
  induction ns generalizing s with
  | nil => simp
  | cons n ns ih =>
    rw [List.foldl_cons, ih, List.forall_mem_cons, ← and_assoc]
    apply and_congr_left
    intro _
    obtain ⟨hskip, hs⟩ | ⟨⟨hv, hl⟩, h⟩ := fitNode_cases stop again y visited s n
    · rw [hs]
      exact (and_iff_left hskip).symm
    · have hnot : ¬(n.path ∈ visited ∨ n.node.limit = 0) := not_or.mpr ⟨hv, hl⟩
      refine iff_of_false ?_ fun h => hnot h.2
      obtain ⟨r, -, hs⟩ | ⟨o, r, -, ⟨r', -, hs⟩ | ⟨r', -, hs⟩⟩ := h <;> rw [hs] <;> exact Bool.false_ne_true

theorem foldl_empty_iff (hi reads : Nat) :
    (list.foldl (fitNode stop again y visited) ⟨hi, false, true, fun _ => none, reads⟩).empty = true ↔
      unplaced list visited = [] := by
  rw [foldl_empty, and_iff_right rfl, List.eq_nil_iff_forall_not_mem]
  constructor
  · intro h n hn
    obtain ⟨hmem, hv, hl⟩ := mem_unplaced.mp hn
    exact (h n hmem).elim hv hl
  · intro h n hn
    by_contra hno
    exact h n (mem_unplaced.mpr ⟨hn, not_or.mp hno⟩)

/-- What the loop has: the layout of an order, if it is smaller than the limit that was given. -/
def FitsOne (list : List NodePtr) (y : Layout) (hi : Nat) (visited : List (List Nat)) (limit : Nat)
    (table : Nat → Option TblEntry) : Prop :=
  limit < hi → ∃ order z, order.Perm (unplaced list visited) ∧ FirstFit y order z ∧ z.lo = limit ∧ z.table = table

/-- The loop keeps the layout of an order, if the recursive calls return such layouts. -/
theorem foldl_fitsOne (hnodup : (list.map NodePtr.path).Nodup)
    (hagain : ∀ n ∈ unplaced list visited, ∀ o limit reads, FitsOne list (y.place n o) limit (n.path :: visited)
      (again (y.place n o) limit (n.path :: visited) reads).1 (again (y.place n o) limit (n.path :: visited) reads).2.1)
    (hns : ∀ n ∈ ns, n ∈ list) (hs : (s.accepted = false → s.limit = hi) ∧ FitsOne list y hi visited s.limit s.mintbl) :
    ((ns.foldl (fitNode stop again y visited) s).accepted = false →
        (ns.foldl (fitNode stop again y visited) s).limit = hi) ∧
      FitsOne list y hi visited (ns.foldl (fitNode stop again y visited) s).limit
        (ns.foldl (fitNode stop again y visited) s).mintbl := by
  induction ns generalizing s with
  | nil => exact hs
  | cons n ns ih =>
    rw [List.foldl_cons]
    apply ih fun m hm => hns m (List.mem_cons_of_mem n hm)
    obtain ⟨-, h⟩ | ⟨⟨hv, hl⟩, h⟩ := fitNode_cases stop again y visited s n
    · rw [h]
      exact hs
    · have hn : n ∈ unplaced list visited := mem_unplaced.mpr ⟨hns n List.mem_cons_self, hv, hl⟩
      obtain ⟨r, -, h⟩ | ⟨o, r, ho, ⟨r', -, h⟩ | ⟨r', hlt, h⟩⟩ := h
      · rw [h]
        exact hs
      · rw [h]
        exact hs
      · rw [h]
        refine ⟨fun h => absurd h Bool.true_eq_false.mp, fun _ => ?_⟩
        obtain ⟨order, z, hperm, hfit, hlo, htable⟩ := hagain n hn o s.limit r hlt
        obtain ⟨-, -, hfree, hleast⟩ := firstOffset_some ho
        exact ⟨n :: order, z, (hperm.cons n).trans (unplaced_perm hnodup hn).symm,
          .cons ⟨hfree, fun i hi => hleast i (Nat.zero_le i) hi⟩ hfit, hlo, htable⟩

/-- **What is returned is the layout of an order**, whenever the search is stopped: the nodes placed one after
another, each at the first offset that is free. -/
theorem fit_fitsOne (hnodup : (list.map NodePtr.path).Nodup) (hcount : (unplaced list visited).length ≤ unvisited)
    (y : Layout) (hi reads : Nat) :
    FitsOne list y hi visited (fit list stop unvisited y hi visited reads).1
      (fit list stop unvisited y hi visited reads).2.1 := by
  induction unvisited generalizing y hi visited reads with
  | zero =>
    have hnil : unplaced list visited = [] := List.length_eq_zero_iff.mp (Nat.le_zero.mp hcount)
    exact fun _ => ⟨[], y, by rw [hnil], .nil, rfl, rfl⟩
  | succ unvisited ih =>
    have hloop := @foldl_fitsOne list list stop y visited ⟨hi, false, true, fun _ => none, reads⟩ hi
      (fit list stop unvisited) hnodup (fun n hn o limit reads => ?_) (fun _ h => h)
      ⟨fun _ => rfl, fun h => absurd h (Nat.lt_irrefl hi)⟩
    · rw [fit]
      split_ifs with hempty haccepted
      · exact fun _ => ⟨[], y, by rw [(foldl_empty_iff hi reads).mp hempty], .nil, rfl, rfl⟩
      · exact hloop.2
      · intro hlt
        rw [Bool.not_eq_true] at haccepted
        exact absurd (hloop.1 haccepted) (Nat.ne_of_lt hlt)
    · apply ih
      have := (unplaced_perm hnodup hn).length_eq
      rw [List.length_cons] at this
      omega

/-- The loop leaves a limit that is no greater than the layout of any order, if the recursive calls do. -/
theorem foldl_le {again : Layout → Nat → List (List Nat) → Nat → Nat × (Nat → Option TblEntry) × Nat}
    (hagain : ∀ n ∈ unplaced list visited, ∀ o limit reads order z, order.Perm (unplaced list (n.path :: visited)) →
      FirstFit (y.place n o) order z → (again (y.place n o) limit (n.path :: visited) reads).1 ≤ z.lo)
    (ns : List NodePtr) (s : Fitting) :
    (ns.foldl (fitNode (fun _ => false) again y visited) s).limit ≤ s.limit ∧
      ∀ n ∈ ns, n ∈ unplaced list visited → ∀ order z, order.Perm (unplaced list (n.path :: visited)) →
        FirstFit y (n :: order) z → (ns.foldl (fitNode (fun _ => false) again y visited) s).limit ≤ z.lo := by
  induction ns generalizing s with
  | nil => exact ⟨Nat.le_refl _, fun n hn => (List.not_mem_nil hn).elim⟩
  | cons n ns ih =>
    rw [List.foldl_cons]
    obtain ⟨hle, hrest⟩ := ih (fitNode (fun _ => false) again y visited s n)
    suffices hn : (fitNode (fun _ => false) again y visited s n).limit ≤ s.limit ∧
        (n ∈ unplaced list visited → ∀ order z, order.Perm (unplaced list (n.path :: visited)) →
          FirstFit y (n :: order) z → (fitNode (fun _ => false) again y visited s n).limit ≤ z.lo) by
      refine ⟨hle.trans hn.1, fun m hm => ?_⟩
      obtain rfl | hm := List.mem_cons.mp hm
      · exact fun hun order z hperm hfit => hle.trans (hn.2 hun order z hperm hfit)
      · exact hrest m hm
    -- an offset below the limit is tried, and any other one gives a layout that is not smaller
    have hbeyond : ∀ o order z, FirstFit (y.place n o) order z → s.limit - tblsz ≤ o → s.limit ≤ z.lo := by
      intro o order z hfit ho
      have hplace : tblsz + o ≤ (y.place n o).lo := Nat.le_max_right _ _
      have := hfit.lo_le
      omega
    obtain ⟨hskip, h⟩ | ⟨-, ⟨r, hnone, h⟩ | ⟨o, r, ho, h⟩⟩ := fitNode_cases (fun _ => false) again y visited s n
    · rw [h]
      refine ⟨Nat.le_refl _, fun hun => ?_⟩
      obtain ⟨-, hv, hl⟩ := mem_unplaced.mp hun
      exact (hskip.elim hv hl).elim
    · rw [h]
      refine ⟨Nat.le_refl _, fun hun order z _ hfit => ?_⟩
      cases hfit with
      | @cons _ _ _ _ o hleast hfit =>
        refine hbeyond o order z hfit (Nat.le_of_not_lt fun hlt => ?_)
        exact firstOffset_none (Prod.ext hnone rfl) o (Nat.zero_le o) (by omega) hleast.1
    · obtain ⟨hle₁, -, hfree, hleast₁⟩ := firstOffset_some ho
      have hsame : ∀ {o'}, IsLeast {o | y.Free n.node o} o' → o' = o := fun h =>
        h.unique ⟨hfree, fun i hi => hleast₁ i (Nat.zero_le i) hi⟩
      obtain ⟨r', hle, h⟩ | ⟨r', hlt, h⟩ := h
      · rw [h]
        refine ⟨Nat.le_refl _, fun hun order z hperm hfit => ?_⟩
        cases hfit with
        | @cons _ _ _ _ o' hleast hfit =>
          rw [hsame hleast] at hfit
          exact hle.trans (hagain n hun o s.limit r order z hperm hfit)
      · rw [h]
        refine ⟨Nat.le_of_lt hlt, fun hun order z hperm hfit => ?_⟩
        cases hfit with
        | @cons _ _ _ _ o' hleast hfit =>
          rw [hsame hleast] at hfit
          exact hagain n hun o s.limit r order z hperm hfit

/-- No order has a smaller layout, if nobody stops the search. -/
theorem fit_le_lo (hnodup : (list.map NodePtr.path).Nodup) (hcount : (unplaced list visited).length ≤ unvisited)
    (hi reads : Nat) (hperm : order.Perm (unplaced list visited)) (hfit : FirstFit y order z) :
    (fit list (fun _ => false) unvisited y hi visited reads).1 ≤ z.lo := by
  induction unvisited generalizing y hi visited reads order z with
  | zero => exact hfit.lo_le
  | succ unvisited ih =>
    have hloop := @foldl_le list y visited (fit list (fun _ => false) unvisited)
      (fun n hn o limit reads order z hperm hfit => ?_) list ⟨hi, false, true, fun _ => none, reads⟩
    · have hlimit : unplaced list visited ≠ [] → (list.foldl (fitNode (fun _ => false)
          (fit list (fun _ => false) unvisited) y visited) ⟨hi, false, true, fun _ => none, reads⟩).limit ≤ z.lo := by
        intro hne
        obtain _ | ⟨n, order⟩ := order
        · exact absurd hperm.symm.eq_nil hne
        · have hn : n ∈ unplaced list visited := hperm.subset List.mem_cons_self
          exact hloop.2 n (mem_unplaced.mp hn).1 hn order z (hperm.trans (unplaced_perm hnodup hn)).cons_inv hfit
      rw [fit]
      split_ifs with hempty haccepted
      · exact hfit.lo_le
      · exact hlimit fun h => hempty ((foldl_empty_iff hi reads).mpr h)
      · exact hlimit fun h => hempty ((foldl_empty_iff hi reads).mpr h)
    · apply ih _ _ _ hperm hfit
      have := (unplaced_perm hnodup hn).length_eq
      rw [List.length_cons] at this
      omega

end

/-! ## Where the children are -/

/-- The children of the nodes `ns` are in the table, each at the offset of its block plus its index, and nothing
else is; the limit is the end of the last block. -/
structure Laid (y : Layout) (ns : List NodePtr) (off : List Nat → Nat) : Prop where
  table : ∀ s e, y.table s = some e ↔
    ∃ n ∈ ns, ∃ j c, n.child j = some c ∧ s = off n.path + j ∧ e = ⟨c.path, off n.path⟩
  mask : ∀ s, y.mask.getLsbD s = (y.table s).isSome
  le : ∀ n ∈ ns, tblsz + off n.path ≤ y.lo
  last : (ns = [] ∧ y.lo = 0) ∨ ∃ n ∈ ns, y.lo = tblsz + off n.path

section

variable {ns order : List NodePtr} {y z : Layout} {n : NodePtr} {off : List Nat → Nat} {o j s : Nat}

theorem laid_blank (off : List Nat → Nat) : Laid .blank [] off := by
  refine ⟨fun s e => ?_, fun s => BitVec.getLsbD_zero, fun n hn => (List.not_mem_nil hn).elim, .inl ⟨rfl, rfl⟩⟩
  constructor
  · intro h
    cases h
  · rintro ⟨n, hn, -⟩
    cases hn

theorem getLsbD_block (hn : n.node.Shaped) (ho : tblsz + o ≤ maxsz) :
    (n.node.mask <<< o).getLsbD s = true ↔ ∃ j, (n.child j).isSome ∧ s = o + j := by
  have hchild : ∀ j, (n.child j).isSome = n.node.mask.getLsbD j := by
    intro j
    rw [hn.mask, NodePtr.child, Option.isSome_map]
  have hbound : ∀ j, n.node.mask.getLsbD j = true → j < tblsz := by
    intro j hj
    rw [hn.mask] at hj
    exact Nat.lt_of_lt_of_le (hn.limit j hj) hn.bound
  rw [BitVec.getLsbD_shiftLeft]
  simp only [Bool.and_eq_true, decide_eq_true_eq, Bool.not_eq_true', decide_eq_false_iff_not, hchild]
  constructor
  · rintro ⟨⟨hs, hle⟩, hbit⟩
    exact ⟨s - o, hbit, by omega⟩
  · rintro ⟨j, hbit, rfl⟩
    have := hbound j hbit
    unfold maxsz at ho
    rw [Nat.add_sub_cancel_left]
    exact ⟨⟨by omega, by omega⟩, hbit⟩

theorem Laid.free (h : Laid y ns off) (hn : n.node.Shaped) (ho : tblsz + o ≤ maxsz) (hfree : y.Free n.node o)
    (hj : (n.child j).isSome) : y.table (o + j) = none := by
  have hbit := congrArg (fun m : BitVec 64 => m.getLsbD (o + j)) hfree
  simp only [BitVec.getLsbD_and, (getLsbD_block hn ho).mpr ⟨j, hj, rfl⟩, Bool.and_true, h.mask] at hbit
  exact Option.not_isSome_iff_eq_none.mp (by rw [hbit]; simp)

theorem place_table (hn : n.node.Shaped) (hfree : ∀ j, (n.child j).isSome → y.table (o + j) = none)
    (s : Nat) (e : TblEntry) : (y.place n o).table s = some e ↔
      y.table s = some e ∨ ∃ j c, n.child j = some c ∧ s = o + j ∧ e = ⟨c.path, o⟩ := by
  have hlimit : ∀ {j c}, n.child j = some c → j < n.node.limit := by
    intro j c hc
    apply hn.limit
    obtain ⟨d, hd, -⟩ := Option.map_eq_some_iff.mp hc
    rw [hd]
    rfl
  rw [Layout.place]
  dsimp only
  by_cases hs : o ≤ s ∧ s - o < n.node.limit
  · rw [if_pos hs]
    have hsum : o + (s - o) = s := Nat.add_sub_cancel' hs.1
    cases hc : n.child (s - o) with
    | none =>
      refine (or_iff_left ?_).symm
      rintro ⟨j, c, hj, rfl, -⟩
      rw [Nat.add_sub_cancel_left, hj] at hc
      cases hc
    | some c =>
      have hnone : y.table s = none := hsum ▸ hfree (s - o) (by rw [hc]; rfl)
      rw [hnone]
      simp only [reduceCtorEq, false_or, Option.some.injEq]
      constructor
      · rintro rfl
        exact ⟨s - o, c, hc, hsum.symm, rfl⟩
      · rintro ⟨j, d, hd, rfl, rfl⟩
        rw [Nat.add_sub_cancel_left, hd] at hc
        rw [Option.some.inj hc]
  · rw [if_neg hs]
    refine (or_iff_left ?_).symm
    rintro ⟨j, c, hj, rfl, -⟩
    exact hs ⟨Nat.le_add_right o j, by rw [Nat.add_sub_cancel_left]; exact hlimit hj⟩

/-- **One more node**: its children are in the table, and those that were there still are. -/
theorem Laid.place (h : Laid y ns off) (hn : n.node.Shaped) (ho : tblsz + o ≤ maxsz) (hfree : y.Free n.node o)
    (hnew : ∀ m ∈ ns, m.path ≠ n.path) : Laid (y.place n o) (ns ++ [n]) (Function.update off n.path o) := by
  have hold : ∀ m ∈ ns, Function.update off n.path o m.path = off m.path := fun m hm =>
    Function.update_of_ne (hnew m hm) o off
  have hself : Function.update off n.path o n.path = o := Function.update_self n.path o off
  have htable := place_table (y := y) hn fun j hj => h.free hn ho hfree hj
  refine ⟨fun s e => ?_, fun s => ?_, fun m hm => ?_, .inr ?_⟩
  · rw [htable, h.table]
    constructor
    · rintro (⟨m, hm, j, c, hc, hs, he⟩ | ⟨j, c, hc, hs, he⟩)
      · exact ⟨m, List.mem_append_left _ hm, j, c, hc, by rw [hold m hm, hs], by rw [hold m hm, he]⟩
      · exact ⟨n, List.mem_append_right _ (List.mem_singleton_self n), j, c, hc, by rw [hself, hs], by rw [hself, he]⟩
    · rintro ⟨m, hm, j, c, hc, hs, he⟩
      obtain hm | hm := List.mem_append.mp hm
      · rw [hold m hm] at hs he
        exact .inl ⟨m, hm, j, c, hc, hs, he⟩
      · rw [List.mem_singleton.mp hm] at hc hs he
        rw [hself] at hs he
        exact .inr ⟨j, c, hc, hs, he⟩
  · rw [Bool.eq_iff_iff, Layout.place, BitVec.getLsbD_or, Bool.or_eq_true, h.mask, getLsbD_block hn ho,
      Option.isSome_iff_exists, Option.isSome_iff_exists]
    constructor
    · rintro (⟨e, he⟩ | ⟨j, hj, hs⟩)
      · exact ⟨e, (htable s e).mpr (.inl he)⟩
      · obtain ⟨c, hc⟩ := Option.isSome_iff_exists.mp hj
        exact ⟨⟨c.path, o⟩, (htable s _).mpr (.inr ⟨j, c, hc, hs, rfl⟩)⟩
    · rintro ⟨e, he⟩
      obtain he | ⟨j, c, hc, hs, -⟩ := (htable s e).mp he
      · exact .inl ⟨e, he⟩
      · exact .inr ⟨j, by rw [hc]; rfl, hs⟩
  · obtain hm | hm := List.mem_append.mp hm
    · rw [hold m hm]
      exact (h.le m hm).trans (Nat.le_max_left _ _)
    · rw [List.mem_singleton.mp hm, hself]
      exact Nat.le_max_right _ _
  · show ∃ m ∈ ns ++ [n], max y.lo (tblsz + o) = _
    by_cases hle : y.lo ≤ tblsz + o
    · exact ⟨n, List.mem_append_right _ (List.mem_singleton_self n), by rw [hself, Nat.max_eq_right hle]⟩
    · obtain ⟨-, h0⟩ | ⟨m, hm, hlo⟩ := h.last
      · omega
      · exact ⟨m, List.mem_append_left _ hm, by rw [hold m hm, ← hlo]; omega⟩

/-- **Every node in order**, as long as the blocks are in the table. -/
theorem FirstFit.laid (hfit : FirstFit y order z) (h : Laid y ns off) (hshaped : ∀ n ∈ order, n.node.Shaped)
    (hnodup : ((ns ++ order).map NodePtr.path).Nodup) (hz : z.lo ≤ maxsz) : ∃ off', Laid z (ns ++ order) off' := by
  induction hfit generalizing ns off with
  | nil => exact ⟨off, by rwa [List.append_nil]⟩
  | @cons y z n order o hleast hfit ih =>
    have ho : tblsz + o ≤ maxsz := (Nat.le_max_right y.lo _).trans (hfit.lo_le.trans hz)
    have hnew : ∀ m ∈ ns, m.path ≠ n.path := by
      intro m hm heq
      rw [List.map_append, List.map_cons, List.nodup_append'] at hnodup
      exact hnodup.2.2 (List.mem_map_of_mem hm) (heq ▸ List.mem_cons_self)
    rw [List.append_cons] at hnodup ⊢
    exact ih (h.place (hshaped n List.mem_cons_self) ho hleast.1 hnew)
      (fun m hm => hshaped m (List.mem_cons_of_mem n hm)) hnodup hz

end

/-! ## The layout of a trie -/

/-- The nodes of the trie that have children to be placed. -/
def branching (root : Node) : List NodePtr := unplaced (walk [] root) []

/-- `walk(&root, list)` and `fit(list, table, 0, 0, MAXSZ, 0)` in `main`: the limit and the table. There is no result
where `list` has no room for the nodes and a NULL behind them. -/
def fitTrie (root : Node) (stop : Nat → Bool) : Option (Nat × (Nat → Option TblEntry)) :=
  let list := walk [] root
  if list.length < maxsz then
    let r := fit list stop list.length .blank maxsz [] 0
    some (r.1, r.2.1)
  else none

section

variable {root : Node} {stop : Nat → Bool} {ns ns' : List NodePtr} {y : Layout} {off : List Nat → Nat} {limit : Nat}
  {table : Nat → Option TblEntry}

theorem Laid.perm (h : Laid y ns off) (hperm : ns.Perm ns') : Laid y ns' off := by
  obtain ⟨htable, hmask, hle, hlast⟩ := h
  refine ⟨fun s e => ?_, hmask, fun n hn => hle n (hperm.mem_iff.mpr hn), ?_⟩
  · rw [htable]
    exact exists_congr fun n => and_congr_left fun _ => hperm.mem_iff
  · obtain ⟨rfl, h0⟩ | ⟨n, hn, hlo⟩ := hlast
    · exact .inl ⟨hperm.symm.eq_nil, h0⟩
    · exact .inr ⟨n, hperm.mem_iff.mp hn, hlo⟩

theorem fitTrie_fitsOne (h : fitTrie root stop = some (limit, table)) :
    (walk [] root).length < maxsz ∧ FitsOne (walk [] root) .blank maxsz [] limit table := by
  rw [fitTrie] at h
  dsimp only at h
  split_ifs at h with hlist
  obtain ⟨rfl, rfl⟩ := Prod.mk.inj (Option.some.inj h)
  exact ⟨hlist, fit_fitsOne (nodup_walk [] root) (List.length_filter_le _ _) .blank maxsz 0⟩

/-- **Whenever SIGINT comes**, a table whose limit is below 64 has each child of a node at the offset of the node's
block plus its index, and nothing else, and the limit is where the last block ends. -/
theorem fitTrie_layout (hroot : root.Sound) (h : fitTrie root stop = some (limit, table)) (hlimit : limit < maxsz) :
    ∃ y off, y.lo = limit ∧ y.table = table ∧ Laid y (branching root) off := by
  obtain ⟨-, hfits⟩ := fitTrie_fitsOne h
  obtain ⟨order, z, hperm, hfit, hlo, htable⟩ := hfits hlimit
  have hshaped : ∀ n ∈ order, n.node.Shaped := by
    intro n hn
    obtain ⟨hmem, -⟩ := mem_unplaced.mp (hperm.subset hn)
    obtain ⟨q, -, hat⟩ := (mem_walk hroot).mp hmem
    exact (hroot.at hat).shaped
  have hnodup : (([] ++ order).map NodePtr.path).Nodup := by
    have hpaths : ((branching root).map NodePtr.path).Nodup :=
      (nodup_walk [] root).sublist (List.Sublist.map NodePtr.path List.filter_sublist)
    exact (hperm.map NodePtr.path).nodup_iff.mpr hpaths
  obtain ⟨off, hlaid⟩ := hfit.laid (laid_blank fun _ => 0) hshaped hnodup (by omega)
  exact ⟨z, off, hlo, htable, hlaid.perm hperm⟩

/-- **The limit is the least one** that placing the nodes one after another has in any order, unless that is 64 or
more, and the table is that of such an order. -/
theorem fitTrie_least (h : fitTrie root (fun _ => false) = some (limit, table)) :
    (∀ order z, order.Perm (branching root) → FirstFit .blank order z → limit ≤ z.lo) ∧
      (limit < maxsz → ∃ order z, order.Perm (branching root) ∧ FirstFit .blank order z ∧ z.lo = limit ∧
        z.table = table) := by
  obtain ⟨-, hfits⟩ := fitTrie_fitsOne h
  refine ⟨fun order z hperm hfit => ?_, hfits⟩
  rw [fitTrie] at h
  dsimp only at h
  split_ifs at h
  obtain ⟨rfl, rfl⟩ := Prod.mk.inj (Option.some.inj h)
  exact fit_le_lo (nodup_walk [] root) (List.length_filter_le _ _) maxsz 0 hperm hfit

end

/-- The block of the root goes behind the first slot here: in the other order the limit is 31. -/
theorem fitTrie_least_two :
    let root := Node.root.insertAll [(bytes "b", "b"), (bytes "ca", "ca"), (bytes "cb", "cb")]
    (∀ order z, order.Perm (branching root) → FirstFit .blank order z → 29 ≤ z.lo) ∧
      ∃ order z, order.Perm (branching root) ∧ FirstFit .blank order z ∧ z.lo = 29 := by
  intro root
  obtain ⟨⟨limit, table⟩, h, hlimit⟩ : ∃ r, fitTrie root (fun _ => false) = some r ∧ r.1 = 29 :=
    Option.map_eq_some_iff.mp (by decide +kernel)
  dsimp only at hlimit
  subst hlimit
  obtain ⟨hle, hex⟩ := fitTrie_least h
  obtain ⟨order, z, hperm, hfit, hlo, -⟩ := hex (by decide)
  exact ⟨hle, order, z, hperm, hfit, hlo⟩

end MinuteHttp
