import MinuteHttp.Libhttp.Iobuf
import Mathlib.Tactic.Common
import Mathlib.Logic.Function.Basic

/-!
# The trie of the table builder (`split` and `insert`, `tools/patricia-build.c`)

A node holds the letters of the edge that leads to it, and its children by the index of their first
letter. `Spells n w t` says that a path from `n` spells `w` and ends in a node with the terminal `t`.

`insert` adds the key it is given and no other, or nothing (`insert_spells_le`). It adds nothing where the
key ends at a node or inside an edge: there `split` makes the node at which the key ends, and nobody
gives it the terminal. While that has not happened the trie is `Sound`, and a key ends so exactly if it is
the first part of a key that is there (`Node.Sound.insert_known`, `Node.Sound.insert_new`); so the keys are all kept
exactly if none is the first part of one inserted before it (`insertAll_iff`).
-/

namespace MinuteHttp

/-- `TBLSZ` -/
def tblsz : Nat := 28

/-- `node`, less what `walk` and `fit` write into it. -/
structure Node where
  elem : List Byte
  limit : Nat
  mask : BitVec 64
  terminal : Option String
  tbl : Nat → Option Node

/-- `ctoi` -/
def ctoi (c : Byte) : Nat :=
  if 97 ≤ c.toNat ∧ c.toNat ≤ 122 then c.toNat - 97
  else if 65 ≤ c.toNat ∧ c.toNat ≤ 90 then c.toNat - 65
  else if c.toNat = 45 then 26
  else 27

/-- `root`, as `main` sets it up. -/
def Node.root : Node := ⟨[], 1, 0, none, fun _ => none⟩

/-- `calloc`, with the letters and the terminal. -/
def Node.leaf (buf : List Byte) (terminal : String) : Node := ⟨buf, 0, 0, some terminal, fun _ => none⟩

/-- `split`; `elem[offs]` is the NUL where `offs` is the length. -/
def Node.split (root : Node) (offs : Nat) : Node :=
  let i := ctoi (root.elem.getD offs 0)
  let n := { root with elem := root.elem.drop offs }
  { root with
    elem := root.elem.take offs
    tbl := Function.update (fun _ => none) i (some n)
    mask := (1 : BitVec 64) <<< i
    terminal := none
    limit := i + 1 }

/-- `while(*s && *s == *buf) s++, buf++, buflen--;` -/
def advance : List Byte → List Byte → List Byte × List Byte
  | s :: ss, b :: bs => if s = b then advance ss bs else (s :: ss, b :: bs)
  | ss, bs => (ss, bs)

/-- `root->tbl[i] = n`, a new child. -/
def Node.adopt (root : Node) (i : Nat) (n : Node) : Node :=
  { root with
    tbl := Function.update root.tbl i (some n)
    mask := root.mask ||| (1 : BitVec 64) <<< i
    limit := max root.limit (i + 1) }

mutual
/-- `insert` -/
def Node.insert (terminal : String) (buf : List Byte) : Node → Node
  | ⟨elem, limit, mask, term, tbl⟩ =>
    let root : Node := ⟨elem, limit, mask, term, tbl⟩
    match advance elem buf with
    -- the terminal is not set
    | (s, []) => root.split (elem.length - s.length)
    | ([], c :: buf) =>
      let i := ctoi c
      match insertChild terminal (c :: buf) (tbl i) with
      | some child => { root with tbl := Function.update tbl i (some child) }
      | none => root.adopt i (.leaf (c :: buf) terminal)
    | (x :: s, c :: buf) => (root.split (elem.length - (x :: s).length)).adopt (ctoi c) (.leaf (c :: buf) terminal)

/-- `insert(root->tbl[i], ..)`, if there is a child. -/
def insertChild (terminal : String) (buf : List Byte) : Option Node → Option Node
  | none => none
  | some n => some (n.insert terminal buf)
end

/-- The keys of a list, with their terminals, one after another. -/
def Node.insertAll (root : Node) (keys : List (List Byte × String)) : Node :=
  keys.foldl (fun root k => root.insert k.2 k.1) root

/-! ## The keys of a trie -/

/-- A path from the node spells the word, and ends in a node with the terminal. -/
inductive Spells : Node → List Byte → String → Prop where
  | here {n : Node} {t : String} : n.terminal = some t → Spells n n.elem t
  | child {n c : Node} {i : Nat} {w : List Byte} {t : String} :
      n.tbl i = some c → Spells c w t → Spells n (n.elem ++ w) t

variable {n c : Node} {i : Nat} {w buf : List Byte} {t terminal : String}

theorem spells_iff : Spells n w t ↔
    (n.terminal = some t ∧ w = n.elem) ∨
      ∃ i c v, n.tbl i = some c ∧ Spells c v t ∧ w = n.elem ++ v := by
  constructor
  · intro h
    cases h with
    | here ht => exact .inl ⟨ht, rfl⟩
    | child hc hv => exact .inr ⟨_, _, _, hc, hv, rfl⟩
  · intro h
    rcases h with ⟨ht, rfl⟩ | ⟨i, c, v, hc, hv, rfl⟩
    · exact .here ht
    · exact .child hc hv

theorem Spells.begins (h : Spells n w t) : n.elem <+: w := by
  cases h with
  | here => exact List.prefix_rfl
  | child => exact List.prefix_append _ _

theorem Node.inductionOn {P : Node → Prop} (n : Node)
    (h : ∀ n : Node, (∀ i c, n.tbl i = some c → P c) → P n) : P n :=
  @Node.rec P (fun o => ∀ c, o = some c → P c) (fun _ _ _ _ _ ih => h _ fun i c hc => ih i c hc)
    (fun _ hc => nomatch hc) (fun _ hval _ hc => Option.some.inj hc ▸ hval) n

theorem Node.insert_eq (n : Node) (terminal : String) (buf : List Byte) :
    n.insert terminal buf =
      match advance n.elem buf with
      | (s, []) => n.split (n.elem.length - s.length)
      | ([], c :: buf) =>
        match n.tbl (ctoi c) with
        | some child =>
          { n with tbl := Function.update n.tbl (ctoi c) (some (child.insert terminal (c :: buf))) }
        | none => n.adopt (ctoi c) (.leaf (c :: buf) terminal)
      | (x :: s, c :: buf) =>
        (n.split (n.elem.length - (x :: s).length)).adopt (ctoi c) (.leaf (c :: buf) terminal) := by
  obtain ⟨elem, limit, mask, term, tbl⟩ := n
  rw [Node.insert]
  rcases hadv : advance elem buf with ⟨_ | ⟨x, s⟩, _ | ⟨c, buf⟩⟩
  · rfl
  · simp only
    cases tbl (ctoi c) with
    | none => rfl
    | some child => rfl
  · rfl
  · rfl

/-! ### Reading an edge -/

/-- The letters that are read off both are the same, and the next ones differ. -/
theorem advance_spec (s b : List Byte) : ∃ p, s = p ++ (advance s b).1 ∧ b = p ++ (advance s b).2 ∧
    ∀ x ss y bs, (advance s b).1 = x :: ss → (advance s b).2 = y :: bs → x ≠ y := by
  fun_induction advance s b with
  | case1 ss x bs ih =>
    obtain ⟨p, hs, hb, hne⟩ := ih
    refine ⟨x :: p, ?_, ?_, hne⟩
    · rw [List.cons_append, ← hs]
    · rw [List.cons_append, ← hb]
  | case2 x ss y bs hxy =>
    refine ⟨[], rfl, rfl, ?_⟩
    intro x' ss' y' bs' hx hy
    rw [List.cons.injEq] at hx hy
    rw [← hx.1, ← hy.1]
    exact hxy
  | case3 ss bs h =>
    refine ⟨[], rfl, rfl, ?_⟩
    intro x ss' y bs' hx hy
    exact absurd hy (h x ss' y bs' hx)

theorem split_at {p s : List Byte} (h : n.elem = p ++ s) :
    n.split (n.elem.length - s.length) =
      { n with
        elem := p
        tbl := Function.update (fun _ => none) (ctoi (s.getD 0 0)) (some { n with elem := s })
        mask := (1 : BitVec 64) <<< ctoi (s.getD 0 0)
        terminal := none
        limit := ctoi (s.getD 0 0) + 1 } := by
  have hoffs : n.elem.length - s.length = p.length := by
    rw [h, List.length_append, Nat.add_sub_cancel]
  have hletter : n.elem.getD p.length 0 = s.getD 0 0 := by
    rw [h, List.getD_eq_getElem?_getD, List.getElem?_append_right (Nat.le_refl _), Nat.sub_self,
      List.getD_eq_getElem?_getD]
  unfold Node.split
  simp only [hoffs, hletter]
  rw [h, List.take_left, List.drop_left]

/-! ### What a step adds -/

theorem spells_split {p s : List Byte} (h : n.elem = p ++ s) :
    Spells (n.split (n.elem.length - s.length)) w t ↔ Spells n w t := by
  rw [split_at h, spells_iff]
  constructor
  · intro hw
    rcases hw with ⟨ht, -⟩ | ⟨i, c, v, hc, hv, rfl⟩
    · exact absurd ht (by simp)
    · simp only [Function.update_apply] at hc
      split at hc
      · rw [← Option.some.inj hc, spells_iff] at hv
        rcases hv with ⟨ht, rfl⟩ | ⟨j, d, u, hd, hu, rfl⟩
        · exact spells_iff.mpr (.inl ⟨ht, h.symm⟩)
        · exact spells_iff.mpr (.inr ⟨j, d, u, hd, hu, by rw [h, List.append_assoc]⟩)
      · exact absurd hc (by simp)
  · intro hw
    refine .inr ⟨ctoi (s.getD 0 0), { n with elem := s }, ?_⟩
    rcases spells_iff.mp hw with ⟨ht, rfl⟩ | ⟨j, d, u, hd, hu, rfl⟩
    · exact ⟨s, by simp only [Function.update_self], .here ht, h⟩
    · refine ⟨s ++ u, by simp only [Function.update_self], spells_iff.mpr (.inr ⟨j, d, u, hd, hu, rfl⟩), ?_⟩
      rw [h, List.append_assoc]

@[simp] theorem Node.adopt_tbl (n : Node) (i : Nat) (c : Node) :
    (n.adopt i c).tbl = Function.update n.tbl i (some c) := rfl

@[simp] theorem Node.adopt_elem (n : Node) (i : Nat) (c : Node) : (n.adopt i c).elem = n.elem := rfl

/-- A new child brings its keys and takes away those of the child it replaces. -/
theorem spells_adopt : Spells (n.adopt i c) w t ↔
    (n.terminal = some t ∧ w = n.elem) ∨ (∃ v, Spells c v t ∧ w = n.elem ++ v) ∨
      ∃ j d v, j ≠ i ∧ n.tbl j = some d ∧ Spells d v t ∧ w = n.elem ++ v := by
  rw [spells_iff]
  refine or_congr Iff.rfl ?_
  constructor
  · rintro ⟨j, d, v, hd, hv, rfl⟩
    by_cases hj : j = i
    · subst hj
      rw [Node.adopt_tbl, Function.update_self, Option.some.injEq] at hd
      exact .inl ⟨v, hd ▸ hv, rfl⟩
    · rw [Node.adopt_tbl, Function.update_of_ne hj] at hd
      exact .inr ⟨j, d, v, hj, hd, hv, rfl⟩
  · rintro (⟨v, hv, rfl⟩ | ⟨j, d, v, hj, hd, hv, rfl⟩)
    · exact ⟨i, c, v, by rw [Node.adopt_tbl, Function.update_self], hv, rfl⟩
    · exact ⟨j, d, v, by rw [Node.adopt_tbl, Function.update_of_ne hj, hd], hv, rfl⟩

theorem spells_leaf : Spells (.leaf buf terminal) w t ↔ w = buf ∧ t = terminal := by
  rw [spells_iff]
  simp [Node.leaf, eq_comm, and_comm]

/-- **At most the key is added**, to whatever trie. -/
theorem insert_spells_le (n : Node) (h : Spells (n.insert terminal buf) w t) :
    Spells n w t ∨ (w = buf ∧ t = terminal) := by
  induction n using Node.inductionOn generalizing buf w with
  | h n ih =>
    obtain ⟨p, hs, hb, -⟩ := advance_spec n.elem buf
    rw [Node.insert_eq] at h
    rcases hadv : advance n.elem buf with ⟨s, _ | ⟨c, b⟩⟩
    · rw [hadv] at h hs
      exact .inl ((spells_split hs).mp h)
    · rw [hadv] at h hs hb
      rcases s with _ | ⟨x, s⟩
      · rw [List.append_nil] at hs
        simp only at h
        cases hc : n.tbl (ctoi c) with
        | none =>
          rw [hc] at h
          rcases spells_adopt.mp h with ⟨ht, hw⟩ | ⟨v, hv, hw⟩ | ⟨j, d, v, -, hd, hv, hw⟩
          · exact .inl (spells_iff.mpr (.inl ⟨ht, hw⟩))
          · obtain ⟨rfl, rfl⟩ := spells_leaf.mp hv
            exact .inr ⟨by rw [hw, hb, hs], rfl⟩
          · exact .inl (spells_iff.mpr (.inr ⟨j, d, v, hd, hv, hw⟩))
        | some child =>
          rw [hc] at h
          rcases spells_iff.mp h with ⟨ht, hw⟩ | ⟨j, d, v, hd, hv, hw⟩
          · exact .inl (spells_iff.mpr (.inl ⟨ht, hw⟩))
          · by_cases hj : j = ctoi c
            · subst hj
              simp only [Function.update_self, Option.some.injEq] at hd
              rcases ih _ child hc (hd ▸ hv) with hold | ⟨rfl, rfl⟩
              · exact .inl (spells_iff.mpr (.inr ⟨_, child, v, hc, hold, hw⟩))
              · exact .inr ⟨by rw [hw, hb, hs], rfl⟩
            · simp only [Function.update_of_ne hj] at hd
              exact .inl (spells_iff.mpr (.inr ⟨j, d, v, hd, hv, hw⟩))
      · have hsplit := fun w t => spells_split (n := n) (w := w) (t := t) hs
        rcases spells_adopt.mp h with ⟨ht, hw⟩ | ⟨v, hv, hw⟩ | ⟨j, d, v, -, hd, hv, hw⟩
        · exact .inl ((hsplit w t).mp (spells_iff.mpr (.inl ⟨ht, hw⟩)))
        · obtain ⟨rfl, rfl⟩ := spells_leaf.mp hv
          refine .inr ⟨?_, rfl⟩
          rw [hw, split_at hs, ← hb]
        · exact .inl ((hsplit w t).mp (spells_iff.mpr (.inr ⟨j, d, v, hd, hv, hw⟩)))

/-! ## Tries that have lost no key -/

/-- `a`–`z` and `-` -/
def IsKeyChar (b : Byte) : Prop := 97 ≤ b.toNat ∧ b.toNat ≤ 122 ∨ b.toNat = 45

instance IsKeyChar.decidable (b : Byte) : Decidable (IsKeyChar b) := inferInstanceAs (Decidable (_ ∨ _))

theorem ctoi_lt {b : Byte} (h : IsKeyChar b) : ctoi b < 27 := by
  unfold IsKeyChar at h
  unfold ctoi
  split_ifs <;> omega

theorem ctoi_inj {a b : Byte} (ha : IsKeyChar a) (hb : IsKeyChar b) (h : ctoi a = ctoi b) : a = b := by
  apply BitVec.eq_of_toNat_eq
  unfold IsKeyChar at ha hb
  unfold ctoi at h
  split_ifs at h <;> omega

/-- Children stand at the index of their first letter, there is a key below each, and `limit` and `mask`
say where the children are. -/
structure Node.Shaped (n : Node) : Prop where
  letters : ∀ b ∈ n.elem, IsKeyChar b
  limit : ∀ i, (n.tbl i).isSome → i < n.limit
  bound : n.limit ≤ tblsz
  mask : ∀ i, n.mask.getLsbD i = (n.tbl i).isSome
  first : ∀ i c, n.tbl i = some c → ∃ b w, c.elem = b :: w ∧ ctoi b = i
  keys : ∀ i c, n.tbl i = some c → ∃ w t, Spells c w t

/-- So it is all over the trie. -/
inductive Node.Sound : Node → Prop where
  | intro {n : Node} : n.Shaped → (∀ i c, n.tbl i = some c → Node.Sound c) → Node.Sound n

namespace Node.Sound

theorem shaped (h : n.Sound) : n.Shaped := by
  cases h
  assumption

theorem child (h : n.Sound) (hc : n.tbl i = some c) : c.Sound := by
  cases h with
  | intro _ hchild => exact hchild i c hc

theorem childless (hletters : ∀ b ∈ n.elem, IsKeyChar b) (hbound : n.limit ≤ tblsz) (hmask : n.mask = 0)
    (htbl : ∀ i, n.tbl i = none) : n.Sound := by
  have hnone : ∀ {P : Nat → Node → Prop} i c, n.tbl i = some c → P i c := by
    intro P i c hc
    rw [htbl] at hc
    exact nomatch hc
  refine .intro ⟨hletters, ?_, hbound, ?_, hnone, hnone⟩ hnone
  · intro i hi
    rw [htbl] at hi
    exact nomatch hi
  · intro i
    rw [hmask, htbl]
    exact BitVec.getLsbD_zero

theorem root : Node.root.Sound := childless (fun _ hb => nomatch hb) (by decide) rfl fun _ => rfl

theorem leaf (hbuf : ∀ b ∈ buf, IsKeyChar b) : (Node.leaf buf terminal).Sound :=
  childless hbuf (Nat.zero_le _) rfl fun _ => rfl

theorem lower {p s : List Byte} (h : n.Sound) (hs : n.elem = p ++ s) : Node.Sound { n with elem := s } := by
  obtain ⟨hletters, hlimit, hbound, hmask, hfirst, hkeys⟩ := h.shaped
  refine .intro ⟨?_, hlimit, hbound, hmask, hfirst, hkeys⟩ fun _ _ hc => h.child hc
  intro b hb
  apply hletters b
  rw [hs]
  exact List.mem_append_right p hb

theorem getLsbD_bit {i : Nat} (j : Nat) (hi : i < 64) : ((1 : BitVec 64) <<< i).getLsbD j = decide (j = i) := by
  simp only [BitVec.getLsbD_shiftLeft, BitVec.ofNat_eq_ofNat, BitVec.getLsbD_one]
  grind

theorem adopt {b : Byte} {w' : List Byte} (h : n.Sound) (hc : c.Sound) (helem : c.elem = b :: w')
    (hkey : ∃ w t, Spells c w t) : (n.adopt (ctoi b) c).Sound := by
  obtain ⟨hletters, hlimit, hbound, hmask, hfirst, hkeys⟩ := h.shaped
  have hb : ctoi b < 27 := ctoi_lt (hc.shaped.letters b (by rw [helem]; exact List.mem_cons_self))
  have hnew : (n.adopt (ctoi b) c).tbl (ctoi b) = some c := by rw [Node.adopt_tbl, Function.update_self]
  have hold : ∀ j, j ≠ ctoi b → (n.adopt (ctoi b) c).tbl j = n.tbl j := fun j hj => by
    rw [Node.adopt_tbl, Function.update_of_ne hj]
  -- each child is the new one or an old one
  have hcases : ∀ {P : Nat → Node → Prop}, P (ctoi b) c → (∀ j d, n.tbl j = some d → P j d) →
      ∀ j d, (n.adopt (ctoi b) c).tbl j = some d → P j d := by
    intro P hP hPold j d hd
    by_cases hj : j = ctoi b
    · subst hj
      exact Option.some.inj (hnew.symm.trans hd) ▸ hP
    · exact hPold j d (hold j hj ▸ hd)
  refine .intro ⟨hletters, ?_, ?_, ?_, hcases ⟨b, w', helem, rfl⟩ hfirst, hcases hkey hkeys⟩
    (hcases hc fun j d hd => h.child hd)
  · intro j hj
    show j < max n.limit (ctoi b + 1)
    by_cases hjb : j = ctoi b
    · omega
    · have := hlimit j (hold j hjb ▸ hj)
      omega
  · show max n.limit (ctoi b + 1) ≤ tblsz
    unfold tblsz at hbound ⊢
    omega
  · intro j
    show (n.mask ||| (1 : BitVec 64) <<< ctoi b).getLsbD j = _
    rw [BitVec.getLsbD_or, getLsbD_bit j (by omega), hmask]
    by_cases hj : j = ctoi b
    · subst hj
      rw [hnew]
      simp
    · rw [hold j hj]
      simp [hj]

theorem split {p s : List Byte} {x : Byte} (h : n.Sound) (hs : n.elem = p ++ x :: s)
    (hkey : ∃ w t, Spells n w t) : (n.split (n.elem.length - (x :: s).length)).Sound := by
  have hlow := h.lower hs
  have hupper : Node.Sound { n with elem := p, limit := 0, mask := 0, terminal := none, tbl := fun _ => none } := by
    refine childless ?_ (Nat.zero_le _) rfl fun _ => rfl
    intro b hb
    apply h.shaped.letters b
    rw [hs]
    exact List.mem_append_left _ hb
  have hbelow : ∃ w t, Spells { n with elem := x :: s } w t := by
    obtain ⟨w, t, hw⟩ := hkey
    rcases spells_iff.mp hw with ⟨ht, -⟩ | ⟨i, d, v, hd, hv, -⟩
    · exact ⟨_, t, .here ht⟩
    · exact ⟨_, t, .child hd hv⟩
  have hadopt := hupper.adopt hlow (b := x) rfl hbelow
  rw [split_at hs]
  simpa [Node.adopt] using hadopt

theorem replace {c' : Node} {b : Byte} {w' : List Byte} (h : n.Sound) (hc : n.tbl (ctoi b) = some c)
    (hc' : c'.Sound) (helem : c'.elem = b :: w') (hkey : ∃ w t, Spells c' w t) :
    Node.Sound { n with tbl := Function.update n.tbl (ctoi b) (some c') } := by
  obtain ⟨hletters, hlimit, hbound, hmask, hfirst, hkeys⟩ := h.shaped
  have hcases : ∀ {P : Nat → Node → Prop}, P (ctoi b) c' → (∀ j d, n.tbl j = some d → P j d) →
      ∀ j d, Function.update n.tbl (ctoi b) (some c') j = some d → P j d := by
    intro P hP hPold j d hd
    by_cases hj : j = ctoi b
    · subst hj
      rw [Function.update_self, Option.some.injEq] at hd
      exact hd ▸ hP
    · rw [Function.update_of_ne hj] at hd
      exact hPold j d hd
  have hsome : ∀ j, (Function.update n.tbl (ctoi b) (some c') j).isSome = (n.tbl j).isSome := by
    intro j
    by_cases hj : j = ctoi b
    · rw [hj, Function.update_self, hc]
      rfl
    · rw [Function.update_of_ne hj]
  exact .intro ⟨hletters, fun j hj => hlimit j (hsome j ▸ hj), hbound, fun j => (hmask j).trans (hsome j).symm,
    hcases ⟨b, w', helem, rfl⟩ hfirst, hcases hkey hkeys⟩ (hcases hc' fun j d hd => h.child hd)

end Node.Sound

/-! ## What becomes of a key -/

theorem insert_elem (terminal : String) {b : Byte} {e v : List Byte} (helem : n.elem = b :: e) (hbuf : buf = b :: v) :
    ∃ e', (n.insert terminal buf).elem = b :: e' := by
  obtain ⟨p, hs, hb, hne⟩ := advance_spec n.elem buf
  have hp : ∃ p', p = b :: p' := by
    rcases p with _ | ⟨x, p⟩
    · exact absurd rfl (hne b e b v (by rw [← helem]; exact hs.symm) (by rw [← hbuf]; exact hb.symm))
    · rw [helem, List.cons_append, List.cons.injEq] at hs
      exact ⟨p, by rw [hs.1]⟩
  obtain ⟨p', rfl⟩ := hp
  rw [Node.insert_eq]
  rcases hadv : advance n.elem buf with ⟨s, _ | ⟨c, b'⟩⟩
  · rw [hadv] at hs
    simp only
    rw [split_at hs]
    exact ⟨p', rfl⟩
  · rw [hadv] at hs
    rcases s with _ | ⟨x, s⟩
    · simp only
      cases n.tbl (ctoi c) with
      | none => exact ⟨e, helem⟩
      | some child => exact ⟨e, helem⟩
    · simp only [Node.adopt_elem]
      rw [split_at hs]
      exact ⟨p', rfl⟩

theorem insert_root (helem : n.elem = []) (hbuf : buf ≠ []) : (n.insert terminal buf).elem = [] := by
  obtain ⟨c, v, rfl⟩ := List.exists_cons_of_ne_nil hbuf
  rw [Node.insert_eq, helem]
  simp only [advance]
  cases n.tbl (ctoi c) with
  | none => exact helem
  | some child => rfl

theorem not_both_parts {p s v w : List Byte} {x y : Byte} (hxy : x ≠ y) (hs : p ++ x :: s <+: w) :
    ¬p ++ y :: v <+: w := by
  intro hv
  obtain ⟨d, rfl⟩ := hs
  rw [List.append_assoc, List.prefix_append_right_inj, List.cons_append, List.cons_prefix_cons] at hv
  exact hxy hv.1.symm

theorem spells_below (h : n.Sound) {c : Byte} {v : List Byte} (hw : Spells n w t)
    (hpre : n.elem ++ c :: v <+: w) :
    ∃ d u, n.tbl (ctoi c) = some d ∧ Spells d u t ∧ w = n.elem ++ u ∧ c :: v <+: u := by
  rcases spells_iff.mp hw with ⟨-, rfl⟩ | ⟨j, d, u, hd, hu, rfl⟩
  · exact absurd hpre.length_le (by simp)
  · rw [List.prefix_append_right_inj] at hpre
    obtain ⟨b, e, helem, rfl⟩ := h.shaped.first j d hd
    have hb := hu.begins
    rw [helem] at hb
    obtain ⟨r, rfl⟩ := hpre
    rw [List.cons_append, List.cons_prefix_cons] at hb
    rw [hb.1] at hd
    exact ⟨d, _, hd, hu, rfl, List.prefix_append _ _⟩

/-- **A key that is the first part of another one adds nothing.** -/
theorem Node.Sound.insert_known (h : n.Sound) (terminal : String) (hw : Spells n w t) (hpre : buf <+: w)
    {w' : List Byte} {t' : String} : Spells (n.insert terminal buf) w' t' ↔ Spells n w' t' := by
  induction n using Node.inductionOn generalizing buf w w' with
  | h n ih =>
    obtain ⟨p, hs, hb, hne⟩ := advance_spec n.elem buf
    rw [Node.insert_eq]
    rcases hadv : advance n.elem buf with ⟨s, _ | ⟨c, b⟩⟩
    · rw [hadv] at hs
      exact spells_split hs
    · rw [hadv] at hs hb hne
      rcases s with _ | ⟨x, s⟩
      · rw [List.append_nil] at hs
        rw [← hs] at hb
        rw [hb] at hpre
        obtain ⟨d, u, hd, hu, -, hrest⟩ := spells_below h hw hpre
        simp only [hd]
        rw [spells_iff, spells_iff]
        refine or_congr Iff.rfl (exists_congr fun j => ?_)
        by_cases hj : j = ctoi c
        · subst hj
          simp only [Function.update_self, hd, Option.some.injEq, exists_and_left, exists_eq_left']
          exact exists_congr fun v => and_congr_left fun _ => ih _ d hd (h.child hd) hu hrest
        · simp only [Function.update_of_ne hj]
      · rw [hb] at hpre
        have hedge := hw.begins
        rw [hs] at hedge
        exact absurd hpre (not_both_parts (hne x s c b rfl rfl) hedge)

/-- **Any other key is added**, and the trie stays sound. -/
theorem Node.Sound.insert_new (h : n.Sound) (terminal : String) (hbuf : ∀ b ∈ buf, IsKeyChar b) (hend : ¬buf <+: n.elem)
    (hkey : n.elem = [] ∨ ∃ w t, Spells n w t) (hnew : ∀ w t, Spells n w t → ¬buf <+: w) :
    (n.insert terminal buf).Sound ∧ ∀ w t, Spells (n.insert terminal buf) w t ↔
      Spells n w t ∨ (w = buf ∧ t = terminal) := by
  suffices hsuff : (n.insert terminal buf).Sound ∧ Spells (n.insert terminal buf) buf terminal ∧
      ∀ w t, Spells n w t → Spells (n.insert terminal buf) w t by
    obtain ⟨hsound, hadded, hkept⟩ := hsuff
    refine ⟨hsound, fun w t => ⟨insert_spells_le n, ?_⟩⟩
    rintro (hold | ⟨rfl, rfl⟩)
    · exact hkept w t hold
    · exact hadded
  induction n using Node.inductionOn generalizing buf with
  | h n ih =>
    obtain ⟨p, hs, hb, hne⟩ := advance_spec n.elem buf
    rw [Node.insert_eq]
    rcases hadv : advance n.elem buf with ⟨s, _ | ⟨c, b⟩⟩
    · rw [hadv, List.append_nil] at hb
      rw [hadv, ← hb] at hs
      exact absurd ⟨_, hs.symm⟩ hend
    · rw [hadv] at hs hb hne
      have hletters : ∀ x ∈ c :: b, IsKeyChar x := fun x hx => hbuf x (by
        rw [hb]
        exact List.mem_append_right p hx)
      rcases s with _ | ⟨x, s⟩
      · rw [List.append_nil] at hs
        rw [← hs] at hb
        simp only
        cases hc : n.tbl (ctoi c) with
        | none =>
          refine ⟨h.adopt (.leaf hletters) rfl ⟨_, _, spells_leaf.mpr ⟨rfl, rfl⟩⟩, ?_, ?_⟩
          · exact spells_adopt.mpr (.inr (.inl ⟨_, spells_leaf.mpr ⟨rfl, rfl⟩, hb⟩))
          · intro w t hw
            rcases spells_iff.mp hw with hhere | ⟨j, d, v, hd, hv, rfl⟩
            · exact spells_adopt.mpr (.inl hhere)
            · have hj : j ≠ ctoi c := fun hj => by
                rw [hj, hc] at hd
                exact nomatch hd
              exact spells_adopt.mpr (.inr (.inr ⟨j, d, v, hj, hd, hv, rfl⟩))
        | some d =>
          obtain ⟨a, e, helem, ha⟩ := h.shaped.first _ d hc
          have hac : a = c :=
            ctoi_inj ((h.child hc).shaped.letters a (by rw [helem]; exact List.mem_cons_self))
              (hletters c List.mem_cons_self) ha
          subst hac
          -- what is not the beginning of a key of the trie is not the beginning of one of the child's
          have hbelow : ∀ v t, Spells d v t → ¬a :: b <+: v := by
            intro v t hv hpre
            apply hnew _ _ (Spells.child hc hv)
            rw [hb]
            exact (List.prefix_append_right_inj _).mpr hpre
          have hdend : ¬a :: b <+: d.elem := by
            obtain ⟨v, t, hv⟩ := h.shaped.keys _ d hc
            exact fun hpre => hbelow v t hv (hpre.trans hv.begins)
          obtain ⟨hsound, hadded, hkept⟩ := ih _ d hc (h.child hc) hletters hdend
            (.inr (h.shaped.keys _ d hc)) hbelow
          obtain ⟨e', helem'⟩ := insert_elem terminal helem rfl
          refine ⟨h.replace hc hsound helem' ⟨_, _, hadded⟩, ?_, ?_⟩
          · rw [hb]
            exact Spells.child (n := { n with tbl := _ }) (Function.update_self _ _ _) hadded
          · intro w t hw
            rcases spells_iff.mp hw with hhere | ⟨j, d', v, hd, hv, rfl⟩
            · exact spells_iff.mpr (.inl hhere)
            · apply spells_iff.mpr
              by_cases hj : j = ctoi a
              · subst hj
                rw [hc, Option.some.injEq] at hd
                subst hd
                exact .inr ⟨_, _, v, Function.update_self _ _ _, hkept v t hv, rfl⟩
              · exact .inr ⟨j, d', v, (Function.update_of_ne hj _ _).trans hd, hv, rfl⟩
      · have hn : ∃ w t, Spells n w t := by
          rcases hkey with hnil | hkey
          · rw [hs] at hnil
            exact absurd hnil (by simp)
          · exact hkey
        have hx : IsKeyChar x := h.shaped.letters x (by rw [hs]; exact List.mem_append_right p List.mem_cons_self)
        have hindex : ctoi x ≠ ctoi c := fun heq =>
          hne x s c b rfl rfl (ctoi_inj hx (hletters c List.mem_cons_self) heq)
        simp only
        refine ⟨(h.split hs hn).adopt (.leaf hletters) rfl ⟨_, _, spells_leaf.mpr ⟨rfl, rfl⟩⟩, ?_, ?_⟩
        · refine spells_adopt.mpr (.inr (.inl ⟨_, spells_leaf.mpr ⟨rfl, rfl⟩, ?_⟩))
          rw [split_at hs]
          exact hb
        · intro w t hw
          have hw := (spells_split hs).mpr hw
          rcases spells_iff.mp hw with hhere | ⟨j, d, v, hd, hv, rfl⟩
          · exact spells_adopt.mpr (.inl hhere)
          · have hj : j ≠ ctoi c := by
              intro hj
              rw [split_at hs, hj] at hd
              simp only [List.getD_cons_zero, Function.update_of_ne hindex.symm] at hd
              exact nomatch hd
            exact spells_adopt.mpr (.inr (.inr ⟨j, d, v, hj, hd, hv, rfl⟩))

/-! ## A list of keys -/

variable {keys : List (List Byte × String)}

theorem insertAll_spells_le (h : Spells (n.insertAll keys) w t) : Spells n w t ∨ (w, t) ∈ keys := by
  induction keys generalizing n with
  | nil => exact .inl h
  | cons k keys ih =>
    rcases ih h with hold | hmem
    · rcases insert_spells_le n hold with hold | ⟨rfl, rfl⟩
      · exact .inl hold
      · exact .inr List.mem_cons_self
    · exact .inr (List.mem_cons_of_mem k hmem)

/-- The keys of a list that are all new to a trie are all added if none is the first part of a key that is
there before it. -/
theorem insertAll_from (h : n.Sound) (hroot : n.elem = []) (hne : ∀ k ∈ keys, k.1 ≠ [])
    (hletters : ∀ k ∈ keys, ∀ b ∈ k.1, IsKeyChar b) (hnodup : (keys.map Prod.fst).Nodup)
    (hfresh : ∀ k ∈ keys, ∀ t, ¬Spells n k.1 t) :
    (∀ w t, Spells (n.insertAll keys) w t ↔ Spells n w t ∨ (w, t) ∈ keys) ↔
      (∀ k ∈ keys, ∀ w t, Spells n w t → ¬k.1 <+: w) ∧
        keys.Pairwise fun k k' => ¬k'.1 <+: k.1 := by
  induction keys generalizing n with
  | nil => simp [Node.insertAll]
  | cons k keys ih =>
    obtain ⟨word, terminal⟩ := k
    rw [List.map_cons, List.nodup_cons] at hnodup
    have hword : word ≠ [] := hne _ List.mem_cons_self
    by_cases hpre : ∃ w t, Spells n w t ∧ word <+: w
    · -- the key is lost, and nothing brings it back
      obtain ⟨w, t, hw, hpre⟩ := hpre
      constructor
      · intro hall
        have hhas : Spells ((n.insert terminal word).insertAll keys) word terminal :=
          (hall word terminal).mpr (.inr List.mem_cons_self)
        rcases insertAll_spells_le hhas with hold | hlater
        · exact absurd ((h.insert_known terminal hw hpre).mp hold) (hfresh _ List.mem_cons_self terminal)
        · exact absurd (List.mem_map.mpr ⟨_, hlater, rfl⟩) hnodup.1
      · intro hnone
        exact absurd hpre (hnone.1 _ List.mem_cons_self w t hw)
    · have hnew : ∀ w t, Spells n w t → ¬word <+: w := fun w t hw hpre' => hpre ⟨w, t, hw, hpre'⟩
      have hend : ¬word <+: n.elem := by
        rw [hroot, List.prefix_nil]
        exact hword
      obtain ⟨hsound, hspells⟩ := h.insert_new terminal (hletters _ List.mem_cons_self) hend (.inl hroot) hnew
      have hfresh' : ∀ k ∈ keys, ∀ t, ¬Spells (n.insert terminal word) k.1 t := by
        intro k hk t hkt
        rcases (hspells _ _).mp hkt with hold | ⟨heq, -⟩
        · exact hfresh k (List.mem_cons_of_mem _ hk) t hold
        · exact hnodup.1 (heq ▸ List.mem_map_of_mem hk)
      have hrest := ih hsound (insert_root hroot hword) (fun k hk => hne k (List.mem_cons_of_mem _ hk))
        (fun k hk => hletters k (List.mem_cons_of_mem _ hk)) hnodup.2 hfresh'
      have hleft : ∀ w t, (Spells (n.insert terminal word) w t ∨ (w, t) ∈ keys) ↔
          (Spells n w t ∨ (w, t) ∈ (word, terminal) :: keys) := by
        intro w t
        rw [hspells, List.mem_cons, Prod.mk.injEq, or_assoc]
      rw [List.pairwise_cons]
      refine Iff.trans (forall₂_congr fun w t => ?_) (hrest.trans ?_)
      · rw [← hleft]
        rfl
      · constructor
        · rintro ⟨hold, hpairs⟩
          refine ⟨?_, ?_, hpairs⟩
          · intro k hk w t hw
            rcases List.mem_cons.mp hk with rfl | hk
            · exact hnew w t hw
            · exact hold k hk w t ((hspells w t).mpr (.inl hw))
          · intro k hk
            exact hold k hk word terminal ((hspells _ _).mpr (.inr ⟨rfl, rfl⟩))
        · rintro ⟨hold, hfirst, hpairs⟩
          refine ⟨?_, hpairs⟩
          intro k hk w t hw
          rcases (hspells w t).mp hw with hw | ⟨rfl, rfl⟩
          · exact hold k (List.mem_cons_of_mem _ hk) w t hw
          · exact hfirst k hk

/-- A trie stays sound, below an empty edge, as long as no key is the first part of one that is there before it. -/
theorem insertAll_sound (h : n.Sound) (hroot : n.elem = []) (hne : ∀ k ∈ keys, k.1 ≠ [])
    (hletters : ∀ k ∈ keys, ∀ b ∈ k.1, IsKeyChar b) (hold : ∀ k ∈ keys, ∀ w t, Spells n w t → ¬k.1 <+: w)
    (hpairs : keys.Pairwise fun k k' => ¬k'.1 <+: k.1) :
    (n.insertAll keys).Sound ∧ (n.insertAll keys).elem = [] := by
  induction keys generalizing n with
  | nil => exact ⟨h, hroot⟩
  | cons k keys ih =>
    rw [List.pairwise_cons] at hpairs
    have hword := hne k List.mem_cons_self
    have hend : ¬k.1 <+: n.elem := by
      rw [hroot, List.prefix_nil]
      exact hword
    obtain ⟨hsound, hspells⟩ := h.insert_new k.2 (hletters k List.mem_cons_self) hend (.inl hroot)
      (hold k List.mem_cons_self)
    refine ih hsound (insert_root hroot hword) (fun k hk => hne k (List.mem_cons_of_mem _ hk))
      (fun k hk => hletters k (List.mem_cons_of_mem _ hk)) (fun k' hk' w t hw => ?_) hpairs.2
    rcases (hspells w t).mp hw with hw | ⟨rfl, rfl⟩
    · exact hold k' (List.mem_cons_of_mem _ hk') w t hw
    · exact hpairs.1 k' hk'

theorem not_spells_root : ¬Spells Node.root w t := by
  intro hw
  rcases spells_iff.mp hw with ⟨ht, -⟩ | ⟨i, c, v, hc, -, -⟩
  · exact nomatch ht
  · exact nomatch hc

/-- **Insertion keeps the keys** exactly where none is the first part of one that is inserted before it. -/
theorem insertAll_iff (keys : List (List Byte × String)) (hne : ∀ k ∈ keys, k.1 ≠ [])
    (hletters : ∀ k ∈ keys, ∀ b ∈ k.1, IsKeyChar b) (hnodup : (keys.map Prod.fst).Nodup) :
    (∀ w t, Spells (Node.root.insertAll keys) w t ↔ (w, t) ∈ keys) ↔
      keys.Pairwise fun k k' => ¬k'.1 <+: k.1 := by
  have hall := insertAll_from .root rfl hne hletters hnodup fun k _ t => not_spells_root
  simp only [not_spells_root, false_or, false_implies, implies_true, true_and] at hall
  exact hall

theorem insertAll_iff_sorted :
    let keys := [(bytes "te", "te"), (bytes "trailer", "trailer"), (bytes "transfer-encoding", "transfer_encoding")]
    Spells (Node.root.insertAll keys) (bytes "trailer") "trailer" ∧
      ¬Spells (Node.root.insertAll keys) (bytes "tra") "trailer" := by
  intro keys
  have hall := (insertAll_iff keys (by decide) (by simp [keys, bytes, IsKeyChar]) (by decide)).mpr (by decide)
  exact ⟨(hall _ _).mpr (by decide), fun h => absurd ((hall _ _).mp h) (by decide)⟩

/-- `a` behind `ab` is lost. -/
theorem insertAll_loses :
    ¬Spells (Node.root.insertAll [(bytes "ab", "ab"), (bytes "a", "a")]) (bytes "a") "a" := by
  intro h
  have hletters : ∀ b ∈ bytes "ab", IsKeyChar b := by decide
  obtain ⟨hsound, hspells⟩ := Node.Sound.root.insert_new "ab" hletters (by decide) (.inl rfl)
    fun _ _ hw => absurd hw not_spells_root
  have hab : Spells (Node.root.insert "ab" (bytes "ab")) (bytes "ab") "ab" := (hspells _ _).mpr (.inr ⟨rfl, rfl⟩)
  have hpre : bytes "a" <+: bytes "ab" := by decide
  have hold : Spells (Node.root.insert "ab" (bytes "ab")) (bytes "a") "a" :=
    (hsound.insert_known "a" hab hpre).mp h
  rcases (hspells _ _).mp hold with hroot | ⟨heq, -⟩
  · exact not_spells_root hroot
  · exact absurd heq (by decide)

end MinuteHttp
