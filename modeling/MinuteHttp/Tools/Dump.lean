import MinuteHttp.Libhttp.Cursor
import MinuteHttp.Tools.Fit

/-!
# The table and the walk through it (`fixate` and `dumptbl`, `tools/patricia-build.c`)

The builder prints an entry for each slot. A letter that follows the letters of an entry is looked for in the block
of its children, where an entry is one of them exactly if its `check` is the `next` of the parent. So the walk of
the parser (`walk_trie`) follows the trie, and what it recognises in the table are the keys (`fitTrie_recognises`).
How many slots are printed is found from the blocks of the nodes that are in the table. The root is not: where its
block goes beyond theirs, the walk of some words leaves what is printed (`dumptbl_recognises`). The table of the
header names in the parser is one that is printed so (`headers_dumped`).
-/

namespace MinuteHttp

/-- `fixate`: `te` of the node, the last entry that points to it. -/
def te (table : Nat → Option TblEntry) (path : List Nat) : Option TblEntry :=
  (List.range maxsz).reverse.findSome? fun i => (table i).filter fun e => e.node = path

/-- `_dumptbloffset`; there is no result where `te` is NULL. -/
def dumptblOffset (table : Nat → Option TblEntry) (n : NodePtr) : Option Nat :=
  match (List.range n.node.limit).findSome? n.child with
  | some c => (te table c.path).map TblEntry.offset
  | none => some 0

/-- The letters as text. -/
def text (w : List Byte) : String := String.ofList (w.map fun b => Char.ofNat b.toNat)

/-- What `dumptbl` reads of a node, where the identifier of a terminal has the value `code`. -/
def readNode (list : List NodePtr) (table : Nat → Option TblEntry) (code : String → Nat) (n : NodePtr) :
    Option Patricia :=
  (dumptblOffset table n).map fun offset =>
    ⟨some (text n.node.elem), checkOf list n.path, if n.node.limit = 0 then 99 else nextOf list n.path, offset,
      (n.node.terminal.map code).getD 0⟩

/-- What it prints of the node. There is no result where `buf`, of 32 characters, is too small for the letters, two
quotation marks, a comma and a NUL. -/
def dumpNode (list : List NodePtr) (table : Nat → Option TblEntry) (code : String → Nat) (n : NodePtr) :
    Option Patricia :=
  if n.node.elem.length ≤ 28 then readNode list table code n else none

/-- The entry at the index `i`, where `entry` makes one of a node. -/
def entryAt (list : List NodePtr) (table : Nat → Option TblEntry) (entry : NodePtr → Option Patricia) (i : Nat) :
    Option Patricia :=
  match if i < maxsz then table i else none with
  | none => some ⟨none, 0, 0, 0, 0⟩
  | some e => (list.find? fun n => n.path = e.node).bind entry

/-- What it prints at the index `i`. -/
def dumpEntry (list : List NodePtr) (table : Nat → Option TblEntry) (code : String → Nat) (i : Nat) :
    Option Patricia :=
  entryAt list table (dumpNode list table code) i

/-- The table as it is read, all of it. -/
def readTable (list : List NodePtr) (table : Nat → Option TblEntry) (code : String → Nat) : Option (List Patricia) :=
  (List.range maxsz).mapM (entryAt list table (readNode list table code))

/-- `for(i = 0; i < sz; ++i)` from `i` on, with the entries that are printed; at most `room` of them. -/
def dumpFrom (list : List NodePtr) (table : Nat → Option TblEntry) (code : String → Nat) :
    Nat → Nat → Nat → Option (List Patricia)
  | 0, i, sz => if i < sz then none else some []
  | room + 1, i, sz =>
    if i < sz then do
      let p ← dumpEntry list table code i
      let rest ← dumpFrom list table code room (i + 1) (max sz (p.offset + tblsz))
      some (p :: rest)
    else some []

/-- `dumptbl` -/
def dumptbl (list : List NodePtr) (table : Nat → Option TblEntry) (code : String → Nat) : Option (List Patricia) :=
  dumpFrom list table code maxsz 0 tblsz

/-- What the parser gets back from `walk_trie` for a word and a terminator, as it reads the name of a header. -/
def walkWord (tree : List Patricia) (initial : Patricia) : List Int → Triestate → Option Int
  | [], t => (walkTrie 0 (headerTrieMap 0) tree (some initial) t).map Prod.fst
  | c :: cs, t =>
    (walkTrie c (headerTrieMap c) tree (some initial) t).bind fun r =>
      if r.1 = 0 then walkWord tree initial cs r.2 else some r.1

/-! ## The entries -/

/-- The offset that is printed for a node whose block is at `off`. -/
def offsetOf (off : List Nat → Nat) (n : NodePtr) : Nat :=
  if ((List.range n.node.limit).findSome? n.child).isSome then off n.path else 0

/-- The entry of a node. -/
def entryOf (root : Node) (off : List Nat → Nat) (code : String → Nat) (n : NodePtr) : Patricia :=
  ⟨some (text n.node.elem), checkOf (walk [] root) n.path, if n.node.limit = 0 then 99 else nextOf (walk [] root) n.path,
    offsetOf off n, (n.node.terminal.map code).getD 0⟩

section

variable {root : Node} {y : Layout} {off : List Nat → Nat} {code : String → Nat} {n n' c : NodePtr} {i j s : Nat}
  {p q : List Nat} {list : List NodePtr}

theorem nextOf_lt (hn : n ∈ list) : nextOf list n.path < list.length :=
  List.findIdx_lt_length_of_exists ⟨n, hn, decide_eq_true rfl⟩

theorem nextOf_inj (hn : n ∈ list) (hn' : n' ∈ list) (h : nextOf list n.path = nextOf list n'.path) :
    n.path = n'.path := by
  have hi := List.findIdx_getElem (w := nextOf_lt hn)
  have hi' := List.findIdx_getElem (w := nextOf_lt hn')
  rw [decide_eq_true_eq] at hi hi'
  unfold nextOf at h
  simp only [h] at hi
  exact hi.symm.trans hi'

section

variable (hroot : root.Sound)

include hroot

omit hroot in
theorem root_mem (root : Node) : ⟨[], root⟩ ∈ walk [] root := by
  rw [walk_eq]
  exact List.mem_cons_self

omit hroot in
theorem nextOf_root (root : Node) : nextOf (walk [] root) [] = 0 := by
  rw [nextOf, walk_eq, List.findIdx_cons]
  rfl

theorem child_mem (hn : n ∈ walk [] root) (hc : n.child j = some c) :
    c ∈ walk [] root ∧ c.path = n.path ++ [j] ∧ n.node.tbl j = some c.node := by
  obtain ⟨d, hd, rfl⟩ := Option.map_eq_some_iff.mp hc
  obtain ⟨q, hq, hat⟩ := (mem_walk hroot).mp hn
  refine ⟨(mem_walk hroot).mpr ⟨q ++ [j], ?_, ?_⟩, rfl, hd⟩
  · show n.path ++ [j] = [] ++ (q ++ [j])
    rw [hq, List.append_assoc]
  · rw [at_concat, hat]
    exact hd

theorem parent_mem (hc : c ∈ walk [] root) (hne : c.path ≠ []) : ∃ n ∈ walk [] root, ∃ j, n.child j = some c := by
  obtain ⟨q, hq, hat⟩ := (mem_walk hroot).mp hc
  rw [List.nil_append] at hq
  obtain rfl | ⟨q, j, rfl⟩ := List.eq_nil_or_concat' q
  · exact absurd hq hne
  · rw [at_concat] at hat
    obtain ⟨d, hd, hj⟩ := Option.bind_eq_some_iff.mp hat
    refine ⟨⟨q, d⟩, (mem_walk hroot).mpr ⟨q, rfl, hd⟩, j, ?_⟩
    rw [NodePtr.child, hj, Option.map_some, ← hq]

theorem sound_mem (hn : n ∈ walk [] root) : n.node.Sound := by
  obtain ⟨q, -, hat⟩ := (mem_walk hroot).mp hn
  exact hroot.at hat

omit hroot in
theorem eq_of_path (hn : n ∈ walk [] root) (hn' : n' ∈ walk [] root) (h : n.path = n'.path) : n = n' :=
  List.inj_on_of_nodup_map (nodup_walk [] root) hn hn' h

theorem branching_mem (hn : n ∈ walk [] root) (hc : n.child j = some c) : n ∈ branching root := by
  have hlt := (sound_mem hroot hn).shaped.limit j (by rw [(child_mem hroot hn hc).2.2]; rfl)
  exact mem_unplaced.mpr ⟨hn, List.not_mem_nil, by omega⟩

theorem findSome_child (hn : n ∈ walk [] root) :
    ((List.range n.node.limit).findSome? n.child).isSome ↔ ∃ j c, n.child j = some c := by
  rw [List.findSome?_isSome_iff]
  constructor
  · rintro ⟨j, -, hj⟩
    exact ⟨j, Option.isSome_iff_exists.mp hj⟩
  · rintro ⟨j, c, hc⟩
    refine ⟨j, List.mem_range.mpr ?_, by rw [hc]; rfl⟩
    exact (sound_mem hroot hn).shaped.limit j (by rw [(child_mem hroot hn hc).2.2]; rfl)

variable (hy : Laid y (branching root) off)

include hy

theorem slot_inj (hn : n ∈ walk [] root) (hc : n.child j = some c) (hn' : n' ∈ walk [] root) {j' : Nat} {c' : NodePtr}
    (hc' : n'.child j' = some c') (h : off n.path + j = off n'.path + j') : c = c' := by
  have ht := (hy.table _ _).mpr ⟨n, branching_mem hroot hn hc, j, c, hc, rfl, rfl⟩
  have ht' := (hy.table _ _).mpr ⟨n', branching_mem hroot hn' hc', j', c', hc', rfl, rfl⟩
  rw [h, ht', Option.some.injEq, TblEntry.mk.injEq] at ht
  exact eq_of_path (child_mem hroot hn hc).1 (child_mem hroot hn' hc').1 ht.1.symm

variable (hlo : y.lo < maxsz)

include hlo

theorem childSlot_lt (hn : n ∈ walk [] root) (hc : n.child j = some c) : off n.path + j < maxsz := by
  have hle := hy.le n (branching_mem hroot hn hc)
  have hshaped := (sound_mem hroot hn).shaped
  have hlt := hshaped.limit j (by rw [(child_mem hroot hn hc).2.2]; rfl)
  have := hshaped.bound
  omega

/-- A node has one slot, and has it for itself. -/
theorem slot_unique (hn : n ∈ walk [] root) (hne : n.path ≠ []) :
    ∃! s, s < maxsz ∧ (y.table s).map TblEntry.node = some n.path := by
  obtain ⟨n', hn', j, hj⟩ := parent_mem hroot hn hne
  have hpath := (child_mem hroot hn' hj).2.1
  refine ⟨off n'.path + j, ⟨childSlot_lt hroot hy hlo hn' hj, ?_⟩, ?_⟩
  · rw [(hy.table _ _).mpr ⟨n', branching_mem hroot hn' hj, j, n, hj, rfl, rfl⟩]
    rfl
  · rintro s ⟨-, hs⟩
    obtain ⟨e, he, hnode⟩ := Option.map_eq_some_iff.mp hs
    obtain ⟨n₁, hn₁, j₁, c₁, hc₁, rfl, rfl⟩ := (hy.table _ _).mp he
    have hpath₁ := (child_mem hroot (mem_unplaced.mp hn₁).1 hc₁).2.1
    obtain ⟨hparent, hindex⟩ := List.append_inj' (hpath₁.symm.trans (hnode.trans hpath)) rfl
    rw [hparent, List.singleton_inj.mp hindex]

theorem te_child (hn : n ∈ walk [] root) (hc : n.child j = some c) : te y.table c.path = some ⟨c.path, off n.path⟩ := by
  have hpath := (child_mem hroot hn hc).2.1
  have hsome : (te y.table c.path).isSome := by
    rw [te, List.findSome?_isSome_iff]
    refine ⟨off n.path + j, ?_, ?_⟩
    · exact List.mem_reverse.mpr (List.mem_range.mpr (childSlot_lt hroot hy hlo hn hc))
    · rw [(hy.table _ _).mpr ⟨n, branching_mem hroot hn hc, j, c, hc, rfl, rfl⟩]
      simp
  obtain ⟨e, he⟩ := Option.isSome_iff_exists.mp hsome
  obtain ⟨s, -, hs⟩ := List.exists_of_findSome?_eq_some he
  obtain ⟨hs, hnode⟩ := Option.filter_eq_some_iff.mp hs
  obtain ⟨n', hn', j', c', hc', -, rfl⟩ := (hy.table _ _).mp hs
  have hmem' := (mem_unplaced.mp hn').1
  have hpath' := (child_mem hroot hmem' hc').2.1
  rw [decide_eq_true_eq] at hnode
  dsimp only at hnode
  rw [hpath, hpath'] at hnode
  have hsame := eq_of_path hmem' hn (List.append_inj_left' hnode rfl)
  rw [he, hsame, hpath', hpath, hnode]

theorem dumptblOffset_eq (hn : n ∈ walk [] root) : dumptblOffset y.table n = some (offsetOf off n) := by
  rw [dumptblOffset, offsetOf]
  cases h : (List.range n.node.limit).findSome? n.child with
  | none => rfl
  | some c =>
    obtain ⟨j, -, hc⟩ := List.exists_of_findSome?_eq_some h
    show (te y.table c.path).map TblEntry.offset = _
    rw [te_child hroot hy hlo hn hc]
    rfl

theorem readNode_eq (hn : n ∈ walk [] root) :
    readNode (walk [] root) y.table code n = some (entryOf root off code n) := by
  rw [readNode, dumptblOffset_eq hroot hy hlo hn]
  rfl

/-- What is at an index: the entry of the child that goes there, if any does. -/
theorem entryAt_eq {entry : NodePtr → Option Patricia}
    (hentry : ∀ n ∈ walk [] root, entry n = some (entryOf root off code n)) (i : Nat) :
    (∃ n ∈ walk [] root, ∃ j c, n.child j = some c ∧ i = off n.path + j ∧
        entryAt (walk [] root) y.table entry i = some (entryOf root off code c)) ∨
      ((∀ n ∈ walk [] root, ∀ j c, n.child j = some c → i ≠ off n.path + j) ∧
        entryAt (walk [] root) y.table entry i = some ⟨none, 0, 0, 0, 0⟩) := by
  rw [entryAt]
  by_cases h : ∃ n ∈ walk [] root, ∃ j c, n.child j = some c ∧ i = off n.path + j
  · obtain ⟨n, hn, j, c, hc, rfl⟩ := h
    refine .inl ⟨n, hn, j, c, hc, rfl, ?_⟩
    obtain ⟨hmem, -⟩ := child_mem hroot hn hc
    have htable := (hy.table _ _).mpr ⟨n, branching_mem hroot hn hc, j, c, hc, rfl, rfl⟩
    rw [if_pos (childSlot_lt hroot hy hlo hn hc), htable]
    dsimp only
    have hfind : (walk [] root).find? (fun n => n.path = c.path) = some c := by
      obtain ⟨m, hm⟩ : ∃ m, (walk [] root).find? (fun n => n.path = c.path) = some m :=
        Option.isSome_iff_exists.mp (List.find?_isSome.mpr ⟨c, hmem, by simp⟩)
      have hpath : m.path = c.path := by simpa using List.find?_some hm
      rw [hm, eq_of_path (List.mem_of_find?_eq_some hm) hmem hpath]
    rw [hfind, Option.bind_some, hentry c hmem]
  · have hnone : y.table i = none := by
      rw [Option.eq_none_iff_forall_not_mem]
      intro e he
      obtain ⟨n, hn, j, c, hc, hi, -⟩ := (hy.table _ _).mp he
      exact h ⟨n, (mem_unplaced.mp hn).1, j, c, hc, hi⟩
    refine .inr ⟨fun n hn j c hc hi => h ⟨n, hn, j, c, hc, hi⟩, ?_⟩
    rw [hnone, ite_self]

end

/-! ### The slots that are printed -/

theorem dumpFrom_spec {e : Nat → Patricia} {table : Nat → Option TblEntry}
    (he : ∀ i, dumpEntry list table code i = some (e i)) (hoffset : ∀ i, (e i).offset + tblsz ≤ maxsz) {room sz : Nat}
    (hroom : room + i = maxsz) (hsz : sz ≤ maxsz) :
    ∃ tree, dumpFrom list table code room i sz = some tree ∧ sz ≤ i + tree.length ∧
      ∀ k < tree.length, tree[k]? = some (e (i + k)) ∧ (e (i + k)).offset + tblsz ≤ i + tree.length := by
  induction room generalizing i sz with
  | zero =>
    rw [dumpFrom, if_neg (by omega)]
    exact ⟨[], rfl, by rw [List.length_nil]; omega, fun k hk => (Nat.not_lt_zero k hk).elim⟩
  | succ room ih =>
    rw [dumpFrom]
    by_cases hi : i < sz
    · obtain ⟨tree, htree, hle, hall⟩ := @ih (i + 1) (max sz ((e i).offset + tblsz)) (by omega)
        (Nat.max_le.mpr ⟨hsz, hoffset i⟩)
      rw [if_pos hi, he i, Option.bind_eq_bind, Option.bind_some, htree]
      refine ⟨e i :: tree, rfl, by rw [List.length_cons]; omega, fun k hk => ?_⟩
      rw [List.length_cons] at hk ⊢
      cases k with
      | zero => exact ⟨rfl, by rw [Nat.add_zero]; omega⟩
      | succ k =>
        obtain ⟨hget, hend⟩ := hall k (by omega)
        have hshift : i + (k + 1) = i + 1 + k := by omega
        rw [List.getElem?_cons_succ, hshift]
        exact ⟨hget, by omega⟩
    · rw [if_neg hi]
      exact ⟨[], rfl, by rw [List.length_nil]; omega, fun k hk => (Nat.not_lt_zero k hk).elim⟩

/-- What is printed is a table of the trie. -/
structure TableOf (root : Node) (off : List Nat → Nat) (code : String → Nat) (tree : List Patricia) : Prop where
  size : tblsz ≤ tree.length
  child : ∀ n ∈ walk [] root, ∀ j c, n.child j = some c → off n.path + j < tree.length →
    tree[off n.path + j]? = some (entryOf root off code c)
  only : ∀ s e, tree[s]? = some e → e.pfx ≠ none →
    ∃ n ∈ walk [] root, ∃ j c, n.child j = some c ∧ s = off n.path + j ∧ e = entryOf root off code c
  inside : ∀ e ∈ tree, e.offset + tblsz ≤ tree.length

theorem offset_le (hroot : root.Sound) (hy : Laid y (branching root) off) (hlo : y.lo < maxsz) (hn : n ∈ walk [] root) :
    offsetOf off n + tblsz ≤ maxsz := by
  rw [offsetOf]
  split_ifs with h
  · obtain ⟨j, c, hc⟩ := (findSome_child hroot hn).mp h
    have := hy.le n (branching_mem hroot hn hc)
    omega
  · decide

/-- The entries: of the child that goes to an index, if any does, and otherwise of none; their blocks are inside. -/
theorem entries_exist (hroot : root.Sound) (hy : Laid y (branching root) off) (hlo : y.lo < maxsz)
    {entry : NodePtr → Option Patricia} (hentry : ∀ n ∈ walk [] root, entry n = some (entryOf root off code n)) :
    ∃ e : Nat → Patricia, (∀ i, entryAt (walk [] root) y.table entry i = some (e i)) ∧
      (∀ i, (e i).offset + tblsz ≤ maxsz) ∧
      ∀ i, (∃ n ∈ walk [] root, ∃ j c, n.child j = some c ∧ i = off n.path + j ∧ e i = entryOf root off code c) ∨
        ((∀ n ∈ walk [] root, ∀ j c, n.child j = some c → i ≠ off n.path + j) ∧ e i = ⟨none, 0, 0, 0, 0⟩) := by
  have hat := entryAt_eq hroot hy hlo hentry
  have hsome : ∀ i, ∃ e, entryAt (walk [] root) y.table entry i = some e := by
    intro i
    obtain ⟨n, -, j, c, -, -, h⟩ | ⟨-, h⟩ := hat i
    · exact ⟨_, h⟩
    · exact ⟨_, h⟩
  choose e he using hsome
  have hcases : ∀ i, (∃ n ∈ walk [] root, ∃ j c, n.child j = some c ∧ i = off n.path + j ∧
      e i = entryOf root off code c) ∨
      ((∀ n ∈ walk [] root, ∀ j c, n.child j = some c → i ≠ off n.path + j) ∧ e i = ⟨none, 0, 0, 0, 0⟩) := by
    intro i
    obtain ⟨n, hn, j, c, hc, hsame, h⟩ | ⟨hno, h⟩ := hat i
    · rw [he i] at h
      exact .inl ⟨n, hn, j, c, hc, hsame, Option.some.inj h⟩
    · rw [he i] at h
      exact .inr ⟨hno, Option.some.inj h⟩
  refine ⟨e, he, fun i => ?_, hcases⟩
  obtain ⟨n, hn, j, c, hc, -, h⟩ | ⟨-, h⟩ := hcases i
  · rw [h]
    exact offset_le hroot hy hlo (child_mem hroot hn hc).1
  · rw [h]
    decide

theorem tableOf_of_entries (hroot : root.Sound) (hy : Laid y (branching root) off) {tree : List Patricia}
    {e : Nat → Patricia}
    (hcases : ∀ i, (∃ n ∈ walk [] root, ∃ j c, n.child j = some c ∧ i = off n.path + j ∧ e i = entryOf root off code c) ∨
      ((∀ n ∈ walk [] root, ∀ j c, n.child j = some c → i ≠ off n.path + j) ∧ e i = ⟨none, 0, 0, 0, 0⟩))
    (hsize : tblsz ≤ tree.length)
    (hall : ∀ k < tree.length, tree[k]? = some (e k) ∧ (e k).offset + tblsz ≤ tree.length) :
    TableOf root off code tree := by
  refine ⟨hsize, fun n hn j c hc hlt => ?_, fun s x hs hx => ?_, fun x hx => ?_⟩
  · rw [(hall _ hlt).1]
    obtain ⟨n', hn', j', c', hc', hsame, h⟩ | ⟨hno, -⟩ := hcases (off n.path + j)
    · rw [h, slot_inj hroot hy hn hc hn' hc' hsame]
    · exact absurd rfl (hno n hn j c hc)
  · have hget := (hall s (List.getElem?_eq_some_iff.mp hs).1).1
    rw [hs] at hget
    rw [Option.some.inj hget] at hx ⊢
    obtain ⟨n, hn, j, c, hc, hsame, h⟩ | ⟨-, h⟩ := hcases s
    · exact ⟨n, hn, j, c, hc, hsame, h⟩
    · rw [h] at hx
      exact absurd rfl hx
  · obtain ⟨k, hk, rfl⟩ := List.getElem_of_mem hx
    obtain ⟨hget, hend⟩ := hall k hk
    rw [List.getElem?_eq_getElem hk, Option.some.injEq] at hget
    rw [hget]
    exact hend

/-- **The table that is printed** is one of the trie. -/
theorem dumptbl_tableOf (hroot : root.Sound) (hy : Laid y (branching root) off) (hlo : y.lo < maxsz)
    (hshort : ∀ n ∈ walk [] root, n.node.elem.length ≤ 28) (code : String → Nat) :
    ∃ tree, dumptbl (walk [] root) y.table code = some tree ∧ TableOf root off code tree := by
  have hentry : ∀ n ∈ walk [] root, dumpNode (walk [] root) y.table code n = some (entryOf root off code n) := by
    intro n hn
    rw [dumpNode, if_pos (hshort n hn)]
    exact readNode_eq hroot hy hlo hn
  obtain ⟨e, he, hoffset, hcases⟩ := entries_exist hroot hy hlo hentry
  obtain ⟨tree, htree, hsize, hall⟩ := @dumpFrom_spec _ 0 _ _ _ he hoffset maxsz tblsz rfl (by decide)
  simp only [Nat.zero_add] at hsize hall
  exact ⟨tree, htree, tableOf_of_entries hroot hy hcases hsize hall⟩

/-- **The table that is read** is one of the trie, and has all the slots. -/
theorem readTable_tableOf (hroot : root.Sound) (hy : Laid y (branching root) off) (hlo : y.lo < maxsz)
    (code : String → Nat) : ∃ tree, readTable (walk [] root) y.table code = some tree ∧ tree.length = maxsz ∧
      TableOf root off code tree := by
  obtain ⟨e, he, hoffset, hcases⟩ := @entries_exist _ _ _ code hroot hy hlo _ fun n hn => readNode_eq hroot hy hlo hn
  have hlen : ((List.range maxsz).map e).length = maxsz := by rw [List.length_map, List.length_range]
  refine ⟨(List.range maxsz).map e, ?_, hlen, tableOf_of_entries hroot hy hcases ?_ fun k hk => ?_⟩
  · rw [readTable, funext he]
    exact List.mapM_pure
  · rw [hlen]
    decide
  · rw [hlen] at hk ⊢
    rw [List.getElem?_map, List.getElem?_range hk]
    exact ⟨rfl, hoffset k⟩

end

/-! ## The walk -/

section

variable {root : Node} {off : List Nat → Nat} {code : String → Nat} {tree : List Patricia} {n : NodePtr} {c : Int}
  {cs : List Int} {w v : List Byte} {t : String} {m s : Nat} {e : Patricia} {x : Triestate}

theorem toInt_keyChar {b : Byte} (hb : IsKeyChar b) : b.toInt = b.toNat ∧ 45 ≤ b.toNat ∧ b.toNat ≤ 122 := by
  unfold IsKeyChar at hb
  rw [BitVec.toInt_eq_toNat_cond, if_pos (by omega)]
  omega

theorem headerTrieMap_keyChar {b : Byte} (hb : IsKeyChar b) : headerTrieMap b.toInt = ctoi b := by
  obtain ⟨hint, -⟩ := toInt_keyChar hb
  unfold IsKeyChar at hb
  unfold headerTrieMap ctoi
  rw [hint]
  split_ifs <;> omega

theorem charAt_entryOf (hw : ∀ b ∈ n.node.elem, IsKeyChar b) (i : Nat) :
    (entryOf root off code n).charAt i = (chars n.node.elem ++ [0])[i]? := by
  have hletters : (n.node.elem.map fun b => Char.ofNat b.toNat).map (fun x => (x.toNat : Int)) = chars n.node.elem := by
    rw [chars, List.map_map]
    apply List.map_congr_left
    intro b hb
    obtain ⟨hint, -, hle⟩ := toInt_keyChar (hw b hb)
    rw [hint]
    show ((Char.ofNat b.toNat).toNat : Int) = b.toNat
    rw [Char.ofNat, dif_pos (.inl (by omega))]
    rfl
  rw [Patricia.charAt, Patricia.letters, entryOf, Option.map_some, Option.bind_some, text, String.toList_ofList, hletters]

theorem spells_child (hn : n.node.Sound) {b : Byte} (h : Spells n.node (n.node.elem ++ b :: v) t) :
    ∃ d u, n.child (ctoi b) = some d ∧ d.node.elem = b :: u ∧ Spells d.node (b :: v) t := by
  have hpre : n.node.elem ++ [b] <+: n.node.elem ++ b :: v := ⟨v, by rw [List.append_assoc]; rfl⟩
  obtain ⟨d, w, hd, hw, heq, -⟩ := spells_below hn h hpre
  rw [List.append_cancel_left_eq] at heq
  rw [← heq] at hw
  obtain ⟨b', u, helem, -⟩ := hn.shaped.first _ d hd
  have hbegins := hw.begins
  rw [helem, List.cons_prefix_cons] at hbegins
  rw [hbegins.1] at helem
  exact ⟨⟨n.path ++ [ctoi b], d⟩, u, by rw [NodePtr.child, hd]; rfl, helem, hw⟩

theorem spells_elem (hn : n.node.Sound) : Spells n.node n.node.elem t ↔ n.node.terminal = some t := by
  rw [spells_iff]
  constructor
  · rintro (⟨ht, -⟩ | ⟨i, d, u, hd, hu, helem⟩)
    · exact ht
    · obtain ⟨b, e, hb, -⟩ := hn.shaped.first i d hd
      have hu0 : u = [] := List.append_cancel_left ((List.append_nil _).trans helem).symm
      have := hu.begins
      rw [hu0, hb] at this
      exact absurd this (by simp)
  · intro ht
    exact .inl ⟨ht, rfl⟩

variable (hroot : root.Sound)

include hroot

theorem entryOf_child {j : Nat} {d : NodePtr} (hn : n ∈ walk [] root) (hd : n.child j = some d) :
    ∃ b u, d.node.elem = b :: u ∧ ctoi b = j ∧ headerTrieMap b.toInt = j ∧
      (entryOf root off code d).charAt 0 = some b.toInt ∧
      (entryOf root off code d).check = nextOf (walk [] root) n.path := by
  obtain ⟨hmem, hpath, htbl⟩ := child_mem hroot hn hd
  obtain ⟨b, u, helem, hj⟩ := (sound_mem hroot hn).shaped.first j d.node htbl
  have hletters := (sound_mem hroot hmem).shaped.letters
  have hkey : IsKeyChar b := hletters b (by rw [helem]; exact List.mem_cons_self)
  refine ⟨b, u, helem, hj, (headerTrieMap_keyChar hkey).trans hj, ?_, ?_⟩
  · rw [charAt_entryOf hletters, helem]
    rfl
  · show checkOf (walk [] root) d.path = _
    rw [hpath, checkOf, if_neg (by simp), List.dropLast_concat]

theorem offset_entryOf (hn : n ∈ walk [] root) {j : Nat} {d : NodePtr} (hd : n.child j = some d) :
    (entryOf root off code n).offset = off n.path := by
  show offsetOf off n = off n.path
  rw [offsetOf, if_pos ((findSome_child hroot hn).mpr ⟨j, d, hd⟩)]

theorem next_entryOf (hn : n ∈ walk [] root) : (entryOf root off code n).next = nextOf (walk [] root) n.path ∨
    ((entryOf root off code n).next = 99 ∧ ∀ j, n.child j = none) := by
  rw [entryOf]
  dsimp only
  split_ifs with hlimit
  · refine .inr ⟨rfl, fun j => ?_⟩
    rw [Option.eq_none_iff_forall_not_mem]
    intro d hd
    have := (sound_mem hroot hn).shaped.limit j (by rw [(child_mem hroot hn hd).2.2]; rfl)
    omega
  · exact .inl rfl

theorem walkTrie_letter {initial : Option Patricia} {o : Nat} (hn : n ∈ walk [] root)
    (hs : tree[s]? = some (entryOf root off code n)) (hm : 0 < m) {b : Byte} (hb : n.node.elem[m]? = some b) :
    walkTrie c o tree initial ⟨m, s⟩ = if b.toInt = c then some (0, ⟨m + 1, s⟩) else some (-1, ⟨m, s⟩) := by
  have hletters := (sound_mem hroot hn).shaped.letters
  have hlt := (List.getElem?_eq_some_iff.mp hb).1
  have hchar : (entryOf root off code n).charAt m = some b.toInt := by
    rw [charAt_entryOf hletters, List.getElem?_append_left (by rw [chars, List.length_map]; exact hlt), chars,
      List.getElem?_map, hb]
    rfl
  have hne : b.toInt ≠ 0 := by
    have := toInt_keyChar (hletters b (List.mem_of_getElem? hb))
    omega
  rw [walkTrie, if_pos (Nat.ne_of_gt hm), hs, Option.bind_eq_bind, Option.bind_some, hchar, Option.bind_eq_bind,
    Option.bind_some, if_neg fun h => hne h.1, if_neg hne]

theorem walkTrie_end {initial : Option Patricia} {o : Nat} (hn : n ∈ walk [] root)
    (hs : tree[s]? = some (entryOf root off code n)) (hm : 0 < n.node.elem.length) :
    walkTrie c o tree initial ⟨n.node.elem.length, s⟩ =
      if c = 0 then some ((((n.node.terminal.map code).getD 0 : Nat) : Int), ⟨n.node.elem.length, s⟩)
      else enterChild c o tree (entryOf root off code n) ⟨n.node.elem.length, s⟩ := by
  have hletters := (sound_mem hroot hn).shaped.letters
  have hchar : (entryOf root off code n).charAt n.node.elem.length = some 0 := by
    rw [charAt_entryOf hletters, List.getElem?_append_right (by rw [chars, List.length_map]), chars, List.length_map,
      Nat.sub_self]
    rfl
  rw [walkTrie, if_pos (Nat.ne_of_gt hm), hs, Option.bind_eq_bind, Option.bind_some, hchar, Option.bind_eq_bind,
    Option.bind_some]
  by_cases hc : c = 0
  · rw [if_pos ⟨rfl, hc⟩, if_pos hc]
    rfl
  · rw [if_neg fun h => hc h.2, if_pos rfl, if_neg hc]

variable (hsmall : (walk [] root).length < maxsz) (hT : TableOf root off code tree)

include hsmall hT

/-- **A step into a block** of which all is inside the table: to the child with the letter, or to none if there is
no such child. -/
theorem enterChild_tableOf (hn : n ∈ walk [] root)
    (hnext : e.next = nextOf (walk [] root) n.path ∨ (e.next = 99 ∧ ∀ j, n.child j = none))
    (hoffset : ∀ j d, n.child j = some d → e.offset = off n.path) (hin : e.offset + tblsz ≤ tree.length) :
    (∃ j d b u, n.child j = some d ∧ d.node.elem = b :: u ∧ b.toInt = c ∧
        tree[e.offset + headerTrieMap c]? = some (entryOf root off code d) ∧
        enterChild c (headerTrieMap c) tree e x = some (0, ⟨1, e.offset + headerTrieMap c⟩)) ∨
      ((∀ j d b u, n.child j = some d → d.node.elem = b :: u → b.toInt ≠ c) ∧
        enterChild c (headerTrieMap c) tree e x = some (-1, x)) := by
  have hlt : e.offset + headerTrieMap c < tree.length := by
    have := headerTrieMap_le c
    unfold tblsz at hin
    omega
  obtain ⟨q, hq⟩ : ∃ q, tree[e.offset + headerTrieMap c]? = some q := ⟨_, List.getElem?_eq_getElem hlt⟩
  rw [enterChild, hq, Option.bind_eq_bind, Option.bind_some]
  by_cases hchild : ∃ j d b u, n.child j = some d ∧ d.node.elem = b :: u ∧ b.toInt = c
  · obtain ⟨j, d, b, u, hd, helem, rfl⟩ := hchild
    obtain ⟨b', u', helem', -, hmap, hchar, hcheck⟩ := @entryOf_child _ off code _ hroot _ _ hn hd
    obtain ⟨rfl, rfl⟩ := List.cons.inj (helem.symm.trans helem')
    have hsome := hT.child n hn j d hd (by rw [← hoffset j d hd, ← hmap]; exact hlt)
    rw [← hoffset j d hd, ← hmap, hq, Option.some.injEq] at hsome
    have hsame : e.next = nextOf (walk [] root) n.path := by
      refine hnext.resolve_right fun h => ?_
      rw [h.2 j] at hd
      cases hd
    refine .inl ⟨j, d, b, u, hd, helem, rfl, by rw [hsome], ?_⟩
    rw [hsome, if_pos ⟨hchar, hcheck.trans hsame.symm⟩]
  · refine .inr ⟨fun j d b u hd helem hb => hchild ⟨j, d, b, u, hd, helem, hb⟩, if_neg ?_⟩
    rintro ⟨hchar, hcheck⟩
    have hpfx : q.pfx ≠ none := by
      intro h
      rw [Patricia.charAt, Patricia.letters, h] at hchar
      cases hchar
    obtain ⟨n', hn', j, d, hd, -, rfl⟩ := hT.only _ q hq hpfx
    obtain ⟨b, u, helem, -, -, hb, hcheck'⟩ := @entryOf_child _ off code _ hroot _ _ hn' hd
    rw [hb, Option.some.injEq] at hchar
    rw [hcheck'] at hcheck
    obtain hsame | ⟨h99, -⟩ := hnext
    · rw [hsame] at hcheck
      have hnn := eq_of_path hn' hn (nextOf_inj hn' hn hcheck)
      exact hchild ⟨j, d, b, u, hnn ▸ hd, helem, hchar⟩
    · have := nextOf_lt hn'
      unfold maxsz at hsmall
      omega

omit hsmall in
/-- The block of each node is inside the table if that of the root is. -/
theorem TableOf.block (hfirst : offsetOf off ⟨[], root⟩ + tblsz ≤ tree.length) (hn : n ∈ walk [] root) {j : Nat}
    {d : NodePtr} (hd : n.child j = some d) : off n.path + tblsz ≤ tree.length := by
  induction hlen : n.path.length generalizing n j d with
  | zero =>
    have hpath := List.length_eq_zero_iff.mp hlen
    have hoffset := @offset_entryOf _ off code _ hroot hn _ _ hd
    rw [eq_of_path hn (root_mem root) hpath] at hoffset ⊢
    rw [← hoffset]
    exact hfirst
  | succ k ih =>
    obtain ⟨n', hn', i, hi⟩ := parent_mem hroot hn (by
      intro h
      rw [h] at hlen
      cases hlen)
    obtain ⟨-, hpath, htbl⟩ := child_mem hroot hn' hi
    rw [hpath, List.length_append, List.length_singleton, Nat.add_right_cancel_iff] at hlen
    have hparent := ih hn' hi hlen
    have hshaped := (sound_mem hroot hn').shaped
    have hlt := hshaped.limit i (by rw [htbl]; rfl)
    have hbound := hshaped.bound
    have hinside := hT.inside _ (List.mem_of_getElem? (hT.child n' hn' i n hi (by omega)))
    rwa [offset_entryOf hroot hn hd] at hinside

end

/-- What the walk gives for a word, of which `w` has been read at the node `n`, and for the terminator: the terminal
if the word is one of the node's, and otherwise nothing. -/
def WalksTo (code : String → Nat) (n : Node) (w : List Byte) (cs : List Int) (r : Option Int) : Prop :=
  ∃ x, r = some x ∧ ∀ i : Nat, 0 < i → (x = i ↔ ∃ v t, Spells n v t ∧ chars v = chars w ++ cs ∧ code t = i)

section

variable {root : Node} {off : List Nat → Nat} {code : String → Nat} {tree : List Patricia} {n : NodePtr} {c : Int}
  {cs : List Int} {w : List Byte} {m s : Nat} {e p : Patricia} {x : Triestate}

theorem WalksTo.none {n : Node} (h : ∀ v t, Spells n v t → chars v ≠ chars w ++ cs) :
    WalksTo code n w cs (some (-1)) := by
  refine ⟨-1, rfl, fun i hi => ⟨fun h => by omega, ?_⟩⟩
  rintro ⟨v, t, hv, hcs, -⟩
  exact absurd hcs (h v t hv)

/-- The same words, from one letter further on. -/
theorem WalksTo.letter {n : Node} {b : Byte} {r : Option Int} (h : WalksTo code n (w ++ [b]) cs r) :
    WalksTo code n w (b.toInt :: cs) r := by
  obtain ⟨x, hx, hiff⟩ := h
  refine ⟨x, hx, fun i hi => (hiff i hi).trans ?_⟩
  rw [chars_append, List.append_assoc]
  rfl

variable (hroot : root.Sound) (hsmall : (walk [] root).length < maxsz) (hT : TableOf root off code tree)

include hroot hsmall hT

theorem enterChild_walksTo (hn : n ∈ walk [] root)
    (hnext : e.next = nextOf (walk [] root) n.path ∨ (e.next = 99 ∧ ∀ j, n.child j = none))
    (hoffset : ∀ j d, n.child j = some d → e.offset = off n.path) (hin : e.offset + tblsz ≤ tree.length)
    (ih : ∀ d ∈ walk [] root, ∀ s b u, d.node.elem = b :: u → tree[s]? = some (entryOf root off code d) →
      WalksTo code d.node [b] cs (walkWord tree p cs ⟨1, s⟩)) :
    WalksTo code n.node n.node.elem (c :: cs) ((enterChild c (headerTrieMap c) tree e x).bind fun r =>
      if r.1 = 0 then walkWord tree p cs r.2 else some r.1) := by
  have hsound := sound_mem hroot hn
  obtain ⟨j, d, b, u, hd, helem, rfl, hget, henter⟩ | ⟨hno, henter⟩ :=
    enterChild_tableOf (c := c) (x := x) hroot hsmall hT hn hnext hoffset hin
  · rw [henter, Option.bind_some, if_pos rfl]
    obtain ⟨hmem, -, htbl⟩ := child_mem hroot hn hd
    obtain ⟨y, hy, hiff⟩ := ih d hmem _ b u helem hget
    refine ⟨y, hy, fun i hi => (hiff i hi).trans ?_⟩
    constructor
    · rintro ⟨v, t, hv, hcs, ht⟩
      exact ⟨n.node.elem ++ v, t, .child htbl hv, by rw [chars_append, hcs]; rfl, ht⟩
    · rintro ⟨v, t, hv, hcs, ht⟩
      obtain ⟨v', rfl⟩ := hv.begins
      rw [chars_append, List.append_cancel_left_eq] at hcs
      obtain _ | ⟨b', v'⟩ := v'
      · cases hcs
      · have hb : b' = b := BitVec.eq_of_toInt_eq (List.cons.inj hcs).1
        subst hb
        obtain ⟨d', u', hd', -, hv'⟩ := spells_child hsound hv
        obtain ⟨b'', u'', helem'', hj, -⟩ := @entryOf_child _ off code _ hroot _ _ hn hd
        obtain ⟨rfl, -⟩ := List.cons.inj (helem.symm.trans helem'')
        rw [hj, hd] at hd'
        exact ⟨_, t, Option.some.inj hd' ▸ hv', hcs, ht⟩
  · rw [henter, Option.bind_some, if_neg (fun h => absurd h (by decide : (-1 : Int) ≠ 0))]
    refine .none fun v t hv hcs => ?_
    obtain ⟨v', rfl⟩ := hv.begins
    rw [chars_append, List.append_cancel_left_eq] at hcs
    obtain _ | ⟨b, v'⟩ := v'
    · cases hcs
    · obtain ⟨d, u, hd, helem, -⟩ := spells_child hsound hv
      exact hno _ d b u hd helem (List.cons.inj hcs).1

/-- **Inside the letters of a node**: the walk from its entry, of which `m` letters have been read. -/
theorem walkWord_walksTo (hcs : 0 ∉ cs) (hn : n ∈ walk [] root)
    (hs : tree[s]? = some (entryOf root off code n)) (hm : 0 < m) (hle : m ≤ n.node.elem.length) :
    WalksTo code n.node (n.node.elem.take m) cs (walkWord tree p cs ⟨m, s⟩) := by
  have hsound := sound_mem hroot hn
  induction cs generalizing n m s with
  | nil =>
    rw [walkWord]
    obtain hlt | rfl := Nat.lt_or_eq_of_le hle
    · have hb := List.getElem?_eq_getElem hlt
      have hkey := hsound.shaped.letters _ (List.getElem_mem hlt)
      have hne : n.node.elem[m].toInt ≠ 0 := by
        have := toInt_keyChar hkey
        omega
      rw [walkTrie_letter hroot hn hs hm hb, if_neg hne]
      refine .none fun v t hv h => ?_
      rw [List.append_nil] at h
      rw [chars_inj h] at hv
      have := hv.begins.length_le
      rw [List.length_take] at this
      omega
    · rw [walkTrie_end hroot hn hs hm, if_pos rfl, List.take_length]
      refine ⟨_, rfl, fun i hi => ?_⟩
      rw [List.append_nil]
      constructor
      · intro h
        cases ht : n.node.terminal with
        | none =>
          rw [ht] at h
          simp at h
          omega
        | some t =>
          rw [ht] at h
          exact ⟨_, t, (spells_elem hsound).mpr ht, rfl, by simpa using h⟩
      · rintro ⟨v, t, hv, h, rfl⟩
        rw [chars_inj h] at hv
        rw [(spells_elem hsound).mp hv]
        rfl
  | cons c cs ih =>
    have hc : c ≠ 0 := fun h => hcs (h ▸ List.mem_cons_self)
    have hcs' : 0 ∉ cs := fun h => hcs (List.mem_cons_of_mem c h)
    rw [walkWord]
    obtain hlt | rfl := Nat.lt_or_eq_of_le hle
    · have hb := List.getElem?_eq_getElem hlt
      rw [walkTrie_letter hroot hn hs hm hb]
      by_cases heq : n.node.elem[m].toInt = c
      · rw [if_pos heq, Option.bind_some, if_pos rfl, ← heq]
        apply WalksTo.letter
        rw [← List.take_succ_eq_append_getElem hlt]
        exact ih hcs' hn hs (Nat.succ_pos m) hlt hsound
      · rw [if_neg heq, Option.bind_some, if_neg (fun h => absurd h (by decide : (-1 : Int) ≠ 0))]
        refine .none fun v t hv h => ?_
        obtain ⟨v', rfl⟩ := hv.begins
        apply heq
        have hat := congrArg (fun l => l[m]?) h
        rw [chars, List.getElem?_map, List.getElem?_append_left hlt, hb,
          List.getElem?_append_right (by rw [chars, List.length_map, List.length_take]; omega), chars, List.length_map,
          List.length_take, Nat.min_eq_left hle, Nat.sub_self] at hat
        exact Option.some.inj hat
    · rw [walkTrie_end hroot hn hs hm, if_neg hc, List.take_length]
      apply enterChild_walksTo hroot hsmall hT hn
      · exact next_entryOf hroot hn
      · exact fun j d hd => offset_entryOf hroot hn hd
      · exact hT.inside _ (List.mem_of_getElem? hs)
      · intro d hd s b u helem hs
        have hlen : 1 ≤ d.node.elem.length := by
          rw [helem, List.length_cons]
          omega
        have hd' := ih hcs' hd hs Nat.one_pos hlen (sound_mem hroot hd)
        rwa [helem] at hd'

theorem walkWord_root (hnil : root.elem = []) (hne : ∀ t, ¬Spells root [] t) (hcs : 0 ∉ cs)
    (hfirst : offsetOf off ⟨[], root⟩ + tblsz ≤ tree.length) :
    WalksTo code root [] cs (walkWord tree ⟨some "", 0, 0, offsetOf off ⟨[], root⟩, 0⟩ cs ⟨0, 0⟩) := by
  have hmem := root_mem root
  have hzero := nextOf_root root
  generalize he : (⟨some "", 0, 0, offsetOf off ⟨[], root⟩, 0⟩ : Patricia) = e
  have hnext : e.next = nextOf (walk [] root) [] := by rw [← he, hzero]
  have hin : e.offset + tblsz ≤ tree.length := by rwa [← he]
  have hoffset : ∀ j d, NodePtr.child ⟨[], root⟩ j = some d → e.offset = off [] := by
    intro j d hd
    rw [← he]
    exact @offset_entryOf _ _ code _ hroot hmem _ _ hd
  obtain _ | ⟨c, cs⟩ := cs
  · have henter := enterChild_tableOf (c := 0) (x := ⟨0, 0⟩) hroot hsmall hT hmem (.inl hnext) hoffset hin
    rw [walkWord, walkTrie, if_neg (by simp), Option.bind_eq_bind, Option.bind_some]
    obtain ⟨j, d, b, u, hd, helem, hb, -⟩ | ⟨-, henter⟩ := henter
    · have := toInt_keyChar ((sound_mem hroot (child_mem hroot hmem hd).1).shaped.letters b (by simp [helem]))
      omega
    · rw [henter]
      refine .none fun v t hv h => ?_
      rw [List.append_nil] at h
      rw [chars_inj h] at hv
      exact hne t hv
  · have hwalk := @enterChild_walksTo _ _ _ _ _ c cs e e ⟨0, 0⟩ hroot hsmall hT hmem (.inl hnext) hoffset hin
      fun d hd s b u helem hs => ?_
    · rw [walkWord, walkTrie, if_neg (by simp), Option.bind_eq_bind, Option.bind_some]
      rwa [hnil] at hwalk
    · have hlen : 1 ≤ d.node.elem.length := by
        rw [helem, List.length_cons]
        omega
      have hd' := walkWord_walksTo (p := e) hroot hsmall hT (fun h => hcs (List.mem_cons_of_mem c h)) hd hs Nat.one_pos
        hlen
      rwa [helem] at hd'

end

/-- A word that begins with a character that no key has reads the last slot of the first block. -/
theorem inside_of_walkWord {tree : List Patricia} {p : Patricia} (h : (walkWord tree p [33] ⟨0, 0⟩).isSome) :
    p.offset + tblsz ≤ tree.length := by
  by_contra hno
  have hget : tree[p.offset + headerTrieMap 33]? = none := by
    apply List.getElem?_eq_none
    unfold tblsz at hno
    show tree.length ≤ p.offset + 27
    omega
  rw [walkWord, walkTrie, if_neg (by simp), Option.bind_eq_bind, Option.bind_some, enterChild, hget] at h
  cases h

/-! ## From the keys to the walk -/

section

variable {root c : Node} {q : List Nat} {w : List Byte} {t : String}

theorem spells_at (h : root.at q = some c) (hw : Spells c w t) : ∃ v, Spells root (v ++ w) t := by
  induction q generalizing root with
  | nil =>
    cases h
    exact ⟨[], hw⟩
  | cons i q ih =>
    obtain ⟨d, hd, h⟩ := Option.bind_eq_some_iff.mp h
    obtain ⟨v, hv⟩ := ih h
    exact ⟨root.elem ++ v, by rw [List.append_assoc]; exact .child hd hv⟩

theorem length_elem_le {m : Nat} (hroot : root.Sound) (hnil : root.elem = [])
    (hm : ∀ w t, Spells root w t → w.length ≤ m) {n : NodePtr} (hn : n ∈ walk [] root) : n.node.elem.length ≤ m := by
  by_cases hpath : n.path = []
  · rw [eq_of_path hn (root_mem root) hpath, hnil]
    exact Nat.zero_le m
  · obtain ⟨n', hn', j, hj⟩ := parent_mem hroot hn hpath
    obtain ⟨w, t, hw⟩ := (sound_mem hroot hn').shaped.keys j n.node (child_mem hroot hn' hj).2.2
    obtain ⟨q, -, hat⟩ := (mem_walk hroot).mp hn
    obtain ⟨v, hv⟩ := spells_at hat hw
    have hlen := hm _ t hv
    have := hw.begins.length_le
    rw [List.length_append] at hlen
    omega

end

section

variable {keys : List (List Byte × String)}

theorem spells_insertAll (hne : ∀ k ∈ keys, k.1 ≠ []) (hletters : ∀ k ∈ keys, ∀ b ∈ k.1, IsKeyChar b)
    (hnodup : (keys.map Prod.fst).Nodup) (hpairs : keys.Pairwise fun k k' => ¬k'.1 <+: k.1) (w : List Byte) (t : String) :
    Spells (Node.root.insertAll keys) w t ↔ (w, t) ∈ keys := by
  have hall := (insertAll_from .root rfl hne hletters hnodup fun k _ t => not_spells_root).mpr
    ⟨fun k _ w t hw => absurd hw not_spells_root, hpairs⟩
  rw [hall, or_iff_right not_spells_root]

/-- A walk from the root through a table of the trie finds the keys. -/
theorem tableOf_recognises {tree : List Patricia} {off : List Nat → Nat} {code : String → Nat}
    (hne : ∀ k ∈ keys, k.1 ≠ []) (hletters : ∀ k ∈ keys, ∀ b ∈ k.1, IsKeyChar b) (hnodup : (keys.map Prod.fst).Nodup)
    (hpairs : keys.Pairwise fun k k' => ¬k'.1 <+: k.1) (hsmall : (walk [] (Node.root.insertAll keys)).length < maxsz)
    (hT : TableOf (Node.root.insertAll keys) off code tree)
    (hfirst : offsetOf off ⟨[], Node.root.insertAll keys⟩ + tblsz ≤ tree.length) {cs : List Int} (hcs : 0 ∉ cs) :
    ∃ x, walkWord tree ⟨some "", 0, 0, offsetOf off ⟨[], Node.root.insertAll keys⟩, 0⟩ cs ⟨0, 0⟩ = some x ∧
      ∀ i : Nat, 0 < i → (x = i ↔ ∃ k ∈ keys, chars k.1 = cs ∧ code k.2 = i) := by
  obtain ⟨hroot, hnil⟩ := insertAll_sound .root rfl hne hletters (fun k _ w t hw => absurd hw not_spells_root) hpairs
  have hspells := spells_insertAll hne hletters hnodup hpairs
  have hroot' : ∀ t, ¬Spells (Node.root.insertAll keys) [] t := fun t ht => hne _ ((hspells [] t).mp ht) rfl
  obtain ⟨x, hx, hiff⟩ := walkWord_root hroot hsmall hT hnil hroot' hcs hfirst
  refine ⟨x, hx, fun i hi => (hiff i hi).trans ⟨?_, ?_⟩⟩
  · rintro ⟨v, t, hv, hchars, ht⟩
    exact ⟨(v, t), (hspells v t).mp hv, hchars, ht⟩
  · rintro ⟨k, hk, hchars, ht⟩
    exact ⟨k.1, k.2, (hspells k.1 k.2).mpr hk, hchars, ht⟩

theorem laid_recognises {y : Layout} {off : List Nat → Nat} (code : String → Nat) (hne : ∀ k ∈ keys, k.1 ≠ [])
    (hletters : ∀ k ∈ keys, ∀ b ∈ k.1, IsKeyChar b) (hnodup : (keys.map Prod.fst).Nodup)
    (hpairs : keys.Pairwise fun k k' => ¬k'.1 <+: k.1) (hshort : ∀ k ∈ keys, k.1.length ≤ 28)
    (hsmall : (walk [] (Node.root.insertAll keys)).length < maxsz)
    (hy : Laid y (branching (Node.root.insertAll keys)) off) (hlo : y.lo < maxsz) :
    ∃ tree offset, dumptbl (walk [] (Node.root.insertAll keys)) y.table code = some tree ∧
      dumptblOffset y.table ⟨[], Node.root.insertAll keys⟩ = some offset ∧
      ((∀ cs, 0 ∉ cs → (walkWord tree ⟨some "", 0, 0, offset, 0⟩ cs ⟨0, 0⟩).isSome) ↔ offset + tblsz ≤ tree.length) ∧
      (offset + tblsz ≤ tree.length → ∀ cs, 0 ∉ cs → ∀ i : Nat, 0 < i →
        (walkWord tree ⟨some "", 0, 0, offset, 0⟩ cs ⟨0, 0⟩ = some (i : Int) ↔
          ∃ k ∈ keys, chars k.1 = cs ∧ code k.2 = i)) := by
  obtain ⟨hroot, hnil⟩ := insertAll_sound .root rfl hne hletters (fun k _ w t hw => absurd hw not_spells_root) hpairs
  have hspells := spells_insertAll hne hletters hnodup hpairs
  have helem : ∀ n ∈ walk [] (Node.root.insertAll keys), n.node.elem.length ≤ 28 := fun n hn =>
    length_elem_le hroot hnil (fun w t hw => hshort _ ((hspells w t).mp hw)) hn
  obtain ⟨tree, htree, hT⟩ := dumptbl_tableOf hroot hy hlo helem code
  have hwalk : offsetOf off ⟨[], Node.root.insertAll keys⟩ + tblsz ≤ tree.length → ∀ {cs}, 0 ∉ cs →
      ∃ x, walkWord tree ⟨some "", 0, 0, offsetOf off ⟨[], Node.root.insertAll keys⟩, 0⟩ cs ⟨0, 0⟩ = some x ∧
        ∀ i : Nat, 0 < i → (x = i ↔ ∃ k ∈ keys, chars k.1 = cs ∧ code k.2 = i) :=
    fun hfirst _ hcs => tableOf_recognises hne hletters hnodup hpairs hsmall hT hfirst hcs
  refine ⟨tree, _, htree, dumptblOffset_eq hroot hy hlo (root_mem _), ⟨fun h => ?_, fun hfirst cs hcs => ?_⟩,
    fun hfirst cs hcs i hi => ?_⟩
  · exact inside_of_walkWord (h [33] (by decide))
  · obtain ⟨x, hx, -⟩ := hwalk hfirst hcs
    rw [hx]
    rfl
  · obtain ⟨x, hx, hiff⟩ := hwalk hfirst hcs
    rw [hx, Option.some.injEq]
    exact hiff i hi

end

/-- **From the keys to the walk**: of a table that has been fitted, whenever that was stopped, no walk of the parser
leaves what is printed exactly if the block of the root is printed to its end; and then the words that the parser
recognises are the keys, each with its own terminal. -/
theorem dumptbl_recognises {keys : List (List Byte × String)} {stop : Nat → Bool} {limit : Nat}
    {table : Nat → Option TblEntry} (code : String → Nat) (hne : ∀ k ∈ keys, k.1 ≠ [])
    (hletters : ∀ k ∈ keys, ∀ b ∈ k.1, IsKeyChar b) (hnodup : (keys.map Prod.fst).Nodup)
    (hpairs : keys.Pairwise fun k k' => ¬k'.1 <+: k.1) (hshort : ∀ k ∈ keys, k.1.length ≤ 28)
    (hfit : fitTrie (Node.root.insertAll keys) stop = some (limit, table)) (hlimit : limit < maxsz) :
    ∃ tree offset, dumptbl (walk [] (Node.root.insertAll keys)) table code = some tree ∧
      dumptblOffset table ⟨[], Node.root.insertAll keys⟩ = some offset ∧
      ((∀ cs, 0 ∉ cs → (walkWord tree ⟨some "", 0, 0, offset, 0⟩ cs ⟨0, 0⟩).isSome) ↔ offset + tblsz ≤ tree.length) ∧
      (offset + tblsz ≤ tree.length → ∀ cs, 0 ∉ cs → ∀ i : Nat, 0 < i →
        (walkWord tree ⟨some "", 0, 0, offset, 0⟩ cs ⟨0, 0⟩ = some (i : Int) ↔
          ∃ k ∈ keys, chars k.1 = cs ∧ code k.2 = i)) := by
  obtain ⟨hroot, -⟩ := insertAll_sound .root rfl hne hletters (fun k _ w t hw => absurd hw not_spells_root) hpairs
  obtain ⟨hsmall, -⟩ := fitTrie_fitsOne hfit
  obtain ⟨y, off, rfl, rfl, hy⟩ := fitTrie_layout hroot hfit hlimit
  exact laid_recognises code hne hletters hnodup hpairs hshort hsmall hy hlimit

theorem dumptbl_recognises_trailer :
    let root := Node.root.insertAll
      [(bytes "te", "te"), (bytes "trailer", "trailer"), (bytes "transfer-encoding", "transfer_encoding")]
    let code := fun t => if t = "te" then 30 else if t = "trailer" then 31 else 32
    ∃ limit table tree, fitTrie root (fun _ => false) = some (limit, table) ∧
      dumptbl (walk [] root) table code = some tree ∧
      walkWord tree patinitialHeaders (chars (bytes "trailer")) ⟨0, 0⟩ = some 31 ∧
      walkWord tree patinitialHeaders (chars (bytes "tra")) ⟨0, 0⟩ ≠ some 31 := by
  intro root code
  have hall : ∀ r ∈ fitTrie root (fun _ => false), r.1 < maxsz ∧ dumptblOffset r.2 ⟨[], root⟩ = some 0 ∧
      ∀ t ∈ dumptbl (walk [] root) r.2 code, 0 + tblsz ≤ t.length := by
    decide +kernel
  obtain ⟨⟨limit, table⟩, h⟩ : ∃ r, fitTrie root (fun _ => false) = some r :=
    Option.isSome_iff_exists.mp (by decide +kernel)
  obtain ⟨hlimit, hroot, hsize⟩ := hall _ h
  obtain ⟨tree, offset, htree, hoffset, -, hiff⟩ :=
    dumptbl_recognises code (by decide) (by simp [bytes, IsKeyChar]) (by decide) (by decide) (by decide) h hlimit
  rw [hroot, Option.some.injEq] at hoffset
  subst hoffset
  have hwalk := hiff (hsize tree htree)
  refine ⟨limit, table, tree, h, htree, (hwalk _ (by decide) 31 (by decide)).mpr (by decide), fun hno => ?_⟩
  exact absurd ((hwalk _ (by decide) 31 (by decide)).mp hno) (by decide)

/-- **The table that is found** has a slot for each node but the root, with no other node in it; and the words that
`walk_trie` recognises in it, entered at the root, are the keys, each with its own terminal. -/
theorem fitTrie_recognises {keys : List (List Byte × String)} (code : String → Nat) (stop : Nat → Bool)
    (hne : ∀ k ∈ keys, k.1 ≠ []) (hletters : ∀ k ∈ keys, ∀ b ∈ k.1, IsKeyChar b) (hnodup : (keys.map Prod.fst).Nodup)
    (hpairs : keys.Pairwise fun k k' => ¬k'.1 <+: k.1)
    (hsmall : (walk [] (Node.root.insertAll keys)).length < maxsz) :
    ∃ limit table, fitTrie (Node.root.insertAll keys) stop = some (limit, table) ∧ (limit < maxsz →
      (∀ n ∈ walk [] (Node.root.insertAll keys), n.path ≠ [] →
        ∃! s, s < maxsz ∧ (table s).map TblEntry.node = some n.path) ∧
      ∃ tree offset, readTable (walk [] (Node.root.insertAll keys)) table code = some tree ∧
        dumptblOffset table ⟨[], Node.root.insertAll keys⟩ = some offset ∧
        ∀ cs, 0 ∉ cs → ∃ x, walkWord tree
            ⟨some "", 0, nextOf (walk [] (Node.root.insertAll keys)) [], offset, 0⟩ cs ⟨0, 0⟩ = some x ∧
          (0 < x ↔ ∃ k ∈ keys, chars k.1 = cs ∧ 0 < code k.2) ∧
          ∀ k ∈ keys, chars k.1 = cs → 0 < code k.2 → x = code k.2) := by
  obtain ⟨hroot, -⟩ := insertAll_sound .root rfl hne hletters (fun k _ w t hw => absurd hw not_spells_root) hpairs
  obtain ⟨⟨limit, table⟩, hfit⟩ : ∃ r, fitTrie (Node.root.insertAll keys) stop = some r := ⟨_, if_pos hsmall⟩
  refine ⟨limit, table, hfit, fun hlimit => ?_⟩
  obtain ⟨y, off, rfl, rfl, hy⟩ := fitTrie_layout hroot hfit hlimit
  obtain ⟨tree, htree, hlen, hT⟩ := readTable_tableOf hroot hy hlimit code
  refine ⟨fun n hn hpath => slot_unique hroot hy hlimit hn hpath, tree, _, htree,
    dumptblOffset_eq hroot hy hlimit (root_mem _), fun cs hcs => ?_⟩
  have hfirst : offsetOf off ⟨[], Node.root.insertAll keys⟩ + tblsz ≤ tree.length := by
    rw [hlen]
    exact offset_le hroot hy hlimit (root_mem _)
  obtain ⟨x, hx, hiff⟩ := tableOf_recognises hne hletters hnodup hpairs hsmall hT hfirst hcs
  rw [nextOf_root]
  refine ⟨x, hx, ⟨fun hpos => ?_, ?_⟩, fun k hk hchars hcode => (hiff _ hcode).mpr ⟨k, hk, hchars, rfl⟩⟩
  · obtain ⟨k, hk, hchars, hcode⟩ := (hiff x.toNat (by omega)).mp (by omega)
    exact ⟨k, hk, hchars, by omega⟩
  · rintro ⟨k, hk, hchars, hcode⟩
    have hsame := (hiff _ hcode).mpr ⟨k, hk, hchars, rfl⟩
    omega

theorem fitTrie_recognises_trailer :
    let root := Node.root.insertAll
      [(bytes "te", "te"), (bytes "trailer", "trailer"), (bytes "transfer-encoding", "transfer_encoding")]
    let code := fun t => if t = "te" then 30 else if t = "trailer" then 31 else 32
    ∃ limit table tree offset, fitTrie root (fun _ => false) = some (limit, table) ∧ limit < maxsz ∧
      readTable (walk [] root) table code = some tree ∧
      walkWord tree ⟨some "", 0, nextOf (walk [] root) [], offset, 0⟩ (chars (bytes "trailer")) ⟨0, 0⟩ = some 31 := by
  intro root code
  obtain ⟨limit, table, hfit, hall⟩ := fitTrie_recognises code (fun _ => false) (by decide) (by simp [bytes, IsKeyChar])
    (by decide) (by decide) (show (walk [] root).length < maxsz by decide +kernel)
  have hlimit : ∀ r ∈ fitTrie root (fun _ => false), r.1 < maxsz := by decide +kernel
  have hlt := hlimit _ hfit
  obtain ⟨-, tree, offset, htree, -, hwalk⟩ := hall hlt
  obtain ⟨x, hx, -, hkey⟩ := hwalk (chars (bytes "trailer")) (by decide)
  have hx31 := hkey (bytes "trailer", "trailer") (by decide) rfl (by decide)
  refine ⟨limit, table, tree, offset, hfit, hlt, htree, ?_⟩
  rw [hx, hx31]
  rfl

/-- The block of the root, at the offset 1, ends behind the 28 slots that are printed here. -/
example :
    let root := Node.root.insertAll [(bytes "b", "b"), (bytes "ca", "ca"), (bytes "cb", "cb")]
    ((fitTrie root fun _ => false).bind fun r => dumptbl (walk [] root) r.2 fun _ => 1).map
      (fun tree => (tree.length, walkWord tree ⟨some "", 0, 0, 1, 0⟩ (chars (bytes "!")) ⟨0, 0⟩)) = some (28, none) := by
  decide +kernel

/-! ## The table of the header names -/

/-- The terminal of a line in `main`: the prefix and the line, with `'_'` for what is neither letter nor digit. -/
def terminalOf (pfx line : String) : String :=
  String.ofList ((pfx ++ line).toList.map fun c => if c.isAlphanum then c else '_')

/-- `headers.txt`, with the prefix `http_rq_`. -/
def headerKeys : List (List Byte × String) :=
  ["accept", "accept-charset", "accept-encoding", "accept-language", "authorization", "cache-control", "connection",
    "content-encoding", "content-language", "content-length", "content-location", "content-md5", "content-type",
    "cookie", "date", "expect", "from", "host", "if-match", "if-modified-since", "if-none-match", "if-range",
    "if-unmodified-since", "max-forwards", "origin", "pragma", "proxy-authorization", "range", "referer", "te",
    "trailer", "transfer-encoding", "upgrade", "user-agent", "via", "warning"].map
    fun line => (bytes line, terminalOf "http_rq_" line)

theorem terminalOf_prefixed (line : String) : terminalOf "http_rq_" line =
    String.ofList (("http_rq_".toList ++ line.toList).map fun c => if c.isAlphanum then c else '_') := by
  rw [terminalOf, String.toList_append]

theorem headerKeys_eq : headerKeys =
      [([97, 99, 99, 101, 112, 116], "http_rq_accept"),
        ([97, 99, 99, 101, 112, 116, 45, 99, 104, 97, 114, 115, 101, 116], "http_rq_accept_charset"),
        ([97, 99, 99, 101, 112, 116, 45, 101, 110, 99, 111, 100, 105, 110, 103], "http_rq_accept_encoding"),
        ([97, 99, 99, 101, 112, 116, 45, 108, 97, 110, 103, 117, 97, 103, 101], "http_rq_accept_language"),
        ([97, 117, 116, 104, 111, 114, 105, 122, 97, 116, 105, 111, 110], "http_rq_authorization"),
        ([99, 97, 99, 104, 101, 45, 99, 111, 110, 116, 114, 111, 108], "http_rq_cache_control"),
        ([99, 111, 110, 110, 101, 99, 116, 105, 111, 110], "http_rq_connection"),
        ([99, 111, 110, 116, 101, 110, 116, 45, 101, 110, 99, 111, 100, 105, 110, 103], "http_rq_content_encoding"),
        ([99, 111, 110, 116, 101, 110, 116, 45, 108, 97, 110, 103, 117, 97, 103, 101], "http_rq_content_language"),
        ([99, 111, 110, 116, 101, 110, 116, 45, 108, 101, 110, 103, 116, 104], "http_rq_content_length"),
        ([99, 111, 110, 116, 101, 110, 116, 45, 108, 111, 99, 97, 116, 105, 111, 110], "http_rq_content_location"),
        ([99, 111, 110, 116, 101, 110, 116, 45, 109, 100, 53], "http_rq_content_md5"),
        ([99, 111, 110, 116, 101, 110, 116, 45, 116, 121, 112, 101], "http_rq_content_type"),
        ([99, 111, 111, 107, 105, 101], "http_rq_cookie"), ([100, 97, 116, 101], "http_rq_date"),
        ([101, 120, 112, 101, 99, 116], "http_rq_expect"), ([102, 114, 111, 109], "http_rq_from"),
        ([104, 111, 115, 116], "http_rq_host"), ([105, 102, 45, 109, 97, 116, 99, 104], "http_rq_if_match"),
        ([105, 102, 45, 109, 111, 100, 105, 102, 105, 101, 100, 45, 115, 105, 110, 99, 101], "http_rq_if_modified_since"),
        ([105, 102, 45, 110, 111, 110, 101, 45, 109, 97, 116, 99, 104], "http_rq_if_none_match"),
        ([105, 102, 45, 114, 97, 110, 103, 101], "http_rq_if_range"),
        ([105, 102, 45, 117, 110, 109, 111, 100, 105, 102, 105, 101, 100, 45, 115, 105, 110, 99, 101], "http_rq_if_unmodified_since"),
        ([109, 97, 120, 45, 102, 111, 114, 119, 97, 114, 100, 115], "http_rq_max_forwards"),
        ([111, 114, 105, 103, 105, 110], "http_rq_origin"), ([112, 114, 97, 103, 109, 97], "http_rq_pragma"),
        ([112, 114, 111, 120, 121, 45, 97, 117, 116, 104, 111, 114, 105, 122, 97, 116, 105, 111, 110], "http_rq_proxy_authorization"),
        ([114, 97, 110, 103, 101], "http_rq_range"), ([114, 101, 102, 101, 114, 101, 114], "http_rq_referer"),
        ([116, 101], "http_rq_te"), ([116, 114, 97, 105, 108, 101, 114], "http_rq_trailer"),
        ([116, 114, 97, 110, 115, 102, 101, 114, 45, 101, 110, 99, 111, 100, 105, 110, 103], "http_rq_transfer_encoding"),
        ([117, 112, 103, 114, 97, 100, 101], "http_rq_upgrade"),
        ([117, 115, 101, 114, 45, 97, 103, 101, 110, 116], "http_rq_user_agent"), ([118, 105, 97], "http_rq_via"),
        ([119, 97, 114, 110, 105, 110, 103], "http_rq_warning")] := by
  simp only [headerKeys, terminalOf_prefixed, bytes, List.map_cons, List.map_nil, String.reduceToList]
  rfl

/-- `enum http_request_headers`, in the order of which the lines are. -/
def headerCode (t : String) : Nat := headerKeys.findIdx (fun k => k.2 = t) + 1

/-- The nodes placed one after another, each at the first offset that is free below 64. -/
def placeAll (y : Layout) : List NodePtr → Option Layout
  | [] => some y
  | n :: ns =>
    match (firstOffset (fun _ => false) y.mask n.node.mask (maxsz - tblsz) 0 0).1 with
    | some o => placeAll (y.place n o) ns
    | none => none

theorem placeAll_firstFit {y z : Layout} {ns : List NodePtr} (h : placeAll y ns = some z) : FirstFit y ns z := by
  induction ns generalizing y with
  | nil =>
    cases h
    exact .nil
  | cons n ns ih =>
    rw [placeAll] at h
    cases ho : (firstOffset (fun _ => false) y.mask n.node.mask (maxsz - tblsz) 0 0).1 with
    | none =>
      rw [ho] at h
      cases h
    | some o =>
      rw [ho] at h
      obtain ⟨-, -, hfree, hleast⟩ := firstOffset_some (Prod.ext ho rfl)
      exact .cons ⟨hfree, fun i hi => hleast i (Nat.zero_le i) hi⟩ (ih h)

/-- An order in which the nodes go where they are in `headers`. -/
def headerOrder : List (List Nat) :=
  [[], [0], [0, 2], [0, 2, 26], [2], [8, 12], [19], [15], [17], [19, 17], [2, 14, 13, 19], [2, 14, 13, 19, 11],
    [2, 14], [2, 14, 13], [8], [20]]

/-- The pointers of these paths. -/
def Node.ptrs (root : Node) (order : List (List Nat)) : List NodePtr :=
  order.map fun q => ⟨q, (root.at q).getD .root⟩

theorem ptrs_paths {root : Node} {ns : List NodePtr} (hns : ∀ n ∈ ns, n ∈ walk [] root) :
    root.ptrs (ns.map NodePtr.path) = ns := by
  rw [Node.ptrs, List.map_map]
  refine (List.map_congr_left fun n hn => ?_).trans (List.map_id ns)
  obtain ⟨q, hq, hat⟩ := at_of_mem_walk (hns n hn)
  rw [List.nil_append] at hq
  rw [Function.comp, hq, hat]
  cases n
  rw [← hq]
  rfl

deriving instance DecidableEq for Patricia

/-- **The table of the header names** in the parser is what the builder prints for `headers.txt`, of a layout that
is one of those it tries. -/
theorem headers_dumped : ∃ order z, order.Perm (branching (Node.root.insertAll headerKeys)) ∧ FirstFit .blank order z ∧
    z.lo < maxsz ∧
    dumptbl (walk [] (Node.root.insertAll headerKeys)) z.table headerCode = some headers ∧
    dumptblOffset z.table ⟨[], Node.root.insertAll headerKeys⟩ = some 0 := by
  have hlo : ∀ z ∈ placeAll .blank ((Node.root.insertAll headerKeys).ptrs headerOrder), z.lo < maxsz := by
    rw [headerKeys_eq]
    decide +kernel
  have htree : ∀ z ∈ placeAll .blank ((Node.root.insertAll headerKeys).ptrs headerOrder),
      dumptbl (walk [] (Node.root.insertAll headerKeys)) z.table headerCode = some headers := by
    unfold headerCode
    rw [headerKeys_eq]
    decide +kernel
  have hoffset : ∀ z ∈ placeAll .blank ((Node.root.insertAll headerKeys).ptrs headerOrder),
      dumptblOffset z.table ⟨[], Node.root.insertAll headerKeys⟩ = some 0 := by
    rw [headerKeys_eq]
    decide +kernel
  obtain ⟨z, hfit⟩ : ∃ z, placeAll .blank ((Node.root.insertAll headerKeys).ptrs headerOrder) = some z :=
    Option.isSome_iff_exists.mp (by rw [headerKeys_eq]; decide +kernel)
  have hpaths : headerOrder.Perm ((branching (Node.root.insertAll headerKeys)).map NodePtr.path) := by
    rw [headerKeys_eq]
    decide +kernel
  refine ⟨_, z, ?_, placeAll_firstFit hfit, hlo z hfit, htree z hfit, hoffset z hfit⟩
  have hsame := @ptrs_paths _ (branching (Node.root.insertAll headerKeys)) fun n hn => (mem_unplaced.mp hn).1
  rw [← hsame]
  exact hpaths.map _

end MinuteHttp
