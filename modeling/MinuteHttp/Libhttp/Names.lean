import MinuteHttp.Libhttp.Lines

/-!
# What the header trie recognises

A cursor of `h_header` stands for the letters read so far (`spelt`). A letter moves it exactly along
the prefixes of the header names (`headerWalk_letter`), and the end of a name, a `':'` or a NUL, is
answered by what the letters spell (`headerWalk_end`): a name is recognised, and at a prefix where the
trie branches without a name ending there (`branchings`) the walk stays where it is, as if nothing had
been read. The facts about the table are decided entry by entry.
-/

namespace MinuteHttp

/-! ## The names -/

/-- The characters of a string. -/
def intsOf (s : String) : List Int := s.toList.map fun x => (x.toNat : Int)

/-- The name of the header with the code `r`, in lower case. -/
def headerName (r : Nat) : List Int := (intsOf (httpRequestHeaderNames.getD r "")).map toLower

/-- The codes of the headers the trie knows. -/
def headerCodes : List Nat := List.range' 1 36

/-- The prefixes of header names at which the trie branches and no name ends. -/
def branchings : List (List Int) :=
  (["a", "c", "co", "con", "content-", "content-l", "accept-", "if-", "if-m", "pr", "r", "t", "tra",
    "u"] : List String).map intsOf

theorem mem_headerCodes {r : Nat} : r ∈ headerCodes ↔ 1 ≤ r ∧ r ≤ 36 := by
  simp only [headerCodes, List.mem_range'_1]
  omega

/-- The names are different, each branching is the beginning of one, and none is one. -/
theorem names_facts :
    (∀ r ∈ headerCodes, ∀ s ∈ headerCodes, headerName r = headerName s → r = s) ∧
    (∀ w ∈ branchings, (∃ r ∈ headerCodes, w <+: headerName r) ∧ ∀ r ∈ headerCodes, headerName r ≠ w) ∧
    (∀ r ∈ headerCodes, headerName r ≠ []) ∧ [] ∉ branchings := by
  decide +kernel

theorem headerName_injOn : ∀ r ∈ headerCodes, ∀ s ∈ headerCodes, headerName r = headerName s → r = s :=
  names_facts.1

theorem branchings_stem :
    ∀ w ∈ branchings, (∃ r ∈ headerCodes, w <+: headerName r) ∧ ∀ r ∈ headerCodes, headerName r ≠ w :=
  names_facts.2.1

theorem nil_no_name : (∀ r ∈ headerCodes, headerName r ≠ []) ∧ [] ∉ branchings := names_facts.2.2

/-! ## What a cursor stands for -/

/-- The letters on the way to each entry of `headers`. -/
def stems : List String :=
  ["", "", "", "", "", "", "a", "", "", "accept-", "t", "accept-", "", "c", "", "", "if-m", "",
   "accept-", "", "", "", "", "t", "a", "pr", "accept", "c", "r", "tra", "if-m", "content-l", "r",
   "content-", "tra", "content-l", "co", "co", "con", "pr", "content-", "content-", "if-", "if-",
   "con", "content-l", "u", "if-", "content-", "u", "if-", "", "", "", "", "", "", "", ""]

/-- The letters of an entry. -/
def entryLetters (i : Nat) : List Int :=
  (((headers[i]?).bind Patricia.letters).getD []).map fun x => (x.toNat : Int)

/-- The letters read to reach a cursor. -/
def spelt (t : Triestate) : List Int :=
  intsOf (stems.getD t.slot "") ++ (entryLetters t.slot).take t.poff

/-- A cursor that a walk from the start of the table can leave. -/
def Placed (t : Triestate) : Prop := t = ⟨0, 0⟩ ∨ (t.poff ≠ 0 ∧ CursorIn headers t)

/-- The letters that lead to the end of an entry. -/
def entryPath (i : Nat) : List Int := spelt ⟨(entryLetters i).length, i⟩

/-- The entries, each with the letters that lead to its end. -/
def trieEntries : List (Patricia × List Int) :=
  (List.range 59).flatMap fun i : Nat =>
    match headers[i]? with
    | some p => if p.pfx.isSome then [(p, entryPath i)] else []
    | none => []

/-- The initial node and the entries. -/
def trieNodes : List (Patricia × List Int) := (patinitialHeaders, []) :: trieEntries

/-! ### Facts about the table -/

set_option synthInstance.maxSize 1000 in
set_option synthInstance.maxHeartbeats 200000 in
/-- What is decided of the table, entry by entry. -/
theorem table_facts :
    (∀ i < 59, ∀ w ∈ headerCodes.map headerName ++ branchings,
      entryLetters i ≠ [] → spelt ⟨1, i⟩ <+: w → entryPath i <+: w) ∧
    (∀ x ∈ trieNodes, ∀ o < 28, ∀ q ∈ headers[x.1.offset + o]?, q.pfx.isSome →
      q.check = x.1.next → intsOf (stems.getD (x.1.offset + o) "") = x.2) ∧
    (∀ x ∈ trieNodes, ∀ r ∈ headerCodes, x.2 <+: headerName r →
      ∀ c ∈ (headerName r)[x.2.length]?, ∃ q ∈ headers[x.1.offset + headerTrieMap c]?,
        q.charAt 0 = some c ∧ q.check = x.1.next) ∧
    (∀ x ∈ trieEntries, (x.1.terminal = 0 ∧ x.2 ∈ branchings) ∨
      (x.1.terminal ∈ headerCodes ∧ x.2 = headerName x.1.terminal)) ∧
    (∀ x ∈ trieNodes, x.1.offset + 27 < 59) ∧ spelt ⟨0, 0⟩ = [] := by
  decide +kernel

/-- Inside an entry there is one way on: what begins like it has all its letters. -/
theorem table_inside : ∀ i < 59, ∀ w ∈ headerCodes.map headerName ++ branchings,
    entryLetters i ≠ [] → spelt ⟨1, i⟩ <+: w → entryPath i <+: w := table_facts.1

theorem table_children : ∀ x ∈ trieNodes, ∀ o < 28, ∀ q ∈ headers[x.1.offset + o]?, q.pfx.isSome →
    q.check = x.1.next → intsOf (stems.getD (x.1.offset + o) "") = x.2 := table_facts.2.1

theorem table_complete : ∀ x ∈ trieNodes, ∀ r ∈ headerCodes, x.2 <+: headerName r →
    ∀ c ∈ (headerName r)[x.2.length]?, ∃ q ∈ headers[x.1.offset + headerTrieMap c]?,
      q.charAt 0 = some c ∧ q.check = x.1.next := table_facts.2.2.1

theorem table_terminal : ∀ x ∈ trieEntries,
    (x.1.terminal = 0 ∧ x.2 ∈ branchings) ∨
    (x.1.terminal ∈ headerCodes ∧ x.2 = headerName x.1.terminal) := table_facts.2.2.2.1

theorem table_offset : ∀ x ∈ trieNodes, x.1.offset + 27 < 59 := table_facts.2.2.2.2.1

theorem spelt_start : spelt ⟨0, 0⟩ = [] := table_facts.2.2.2.2.2

/-! ### The walk -/

theorem isSome_pfx {p : Patricia} {w : List Char} (h : p.letters = some w) : p.pfx.isSome = true := by
  unfold Patricia.letters at h
  obtain ⟨x, hx, -⟩ := Option.map_eq_some_iff.mp h
  rw [hx]
  rfl

theorem entryLetters_eq {i : Nat} {p : Patricia} {w : List Char} (hp : headers[i]? = some p)
    (hw : p.letters = some w) : entryLetters i = w.map fun x => (x.toNat : Int) := by
  rw [entryLetters, hp, Option.bind_some, hw]
  rfl

theorem charAt_entryLetters {i : Nat} {p : Patricia} {w : List Char} (hp : headers[i]? = some p)
    (hw : p.letters = some w) (j : Nat) : p.charAt j = (entryLetters i ++ [0])[j]? := by
  rw [entryLetters_eq hp hw, Patricia.charAt, hw, Option.bind_some]

theorem entryPath_eq (i : Nat) : entryPath i = intsOf (stems.getD i "") ++ entryLetters i := by
  rw [entryPath, spelt, List.take_length]

theorem spelt_end {t : Triestate} (h : t.poff = (entryLetters t.slot).length) :
    spelt t = entryPath t.slot := by
  rw [entryPath, ← h]

theorem spelt_succ {t : Triestate} {x : Int} (hx : (entryLetters t.slot)[t.poff]? = some x) :
    spelt { t with poff := t.poff + 1 } = spelt t ++ [x] := by
  rw [spelt, spelt, List.append_assoc]
  show _ ++ (entryLetters t.slot).take (t.poff + 1) = _
  rw [List.take_add_one, hx]
  rfl

theorem entryLetters_ne_zero {i : Nat} {p : Patricia} {w : List Char} (hp : headers[i]? = some p)
    (hw : p.letters = some w) {x : Int} (hx : x ∈ entryLetters i) : x ≠ 0 := by
  rw [entryLetters_eq hp hw] at hx
  obtain ⟨y, hy, rfl⟩ := List.mem_map.mp hx
  have := (headers_printable p (List.mem_of_getElem? hp) w hw).2 y hy
  omega

theorem spelt_prefix_entryPath (t : Triestate) : spelt t <+: entryPath t.slot := by
  rw [entryPath_eq, spelt]
  exact List.prefix_append_right_inj _ |>.mpr (List.take_prefix _ _)

theorem slot_lt {i : Nat} {p : Patricia} (hp : headers[i]? = some p) : i < 59 :=
  (List.getElem?_eq_some_iff.mp hp).1

theorem mem_trieEntries {i : Nat} {p : Patricia} (hp : headers[i]? = some p) (hs : p.pfx.isSome) :
    (p, entryPath i) ∈ trieEntries := by
  refine List.mem_flatMap.mpr ⟨i, List.mem_range.mpr (slot_lt hp), ?_⟩
  simp [hp, hs]

theorem getElem?_of_stem {w v : List Int} {c : Int} (h : w ++ [c] <+: v) : v[w.length]? = some c := by
  obtain ⟨u, rfl⟩ := h
  simp

/-- From a node, a letter leads into the child it begins, or nowhere that a name goes. -/
theorem enterChild_spelt {p : Patricia} {w : List Int} (hx : (p, w) ∈ trieNodes) {c : Int} (hc : c ≠ 0)
    (t : Triestate) :
    (∃ t', enterChild c (headerTrieMap c) headers p t = some (0, t') ∧ Placed t' ∧
      spelt t' = w ++ [c]) ∨
    (enterChild c (headerTrieMap c) headers p t = some (-1, t) ∧
      ∀ r ∈ headerCodes, ¬w ++ [c] <+: headerName r) := by
  have hmap := headerTrieMap_le c
  have hlt : p.offset + headerTrieMap c < headers.length := by
    have := table_offset _ hx
    show _ < 59
    dsimp only at this
    omega
  have hq := List.getElem?_eq_getElem hlt
  set q := headers[p.offset + headerTrieMap c] with hqdef
  simp only [enterChild, hq, Option.bind_eq_bind, Option.bind_some]
  by_cases hcond : q.charAt 0 = some c ∧ q.check = p.next
  · left
    rw [if_pos hcond]
    obtain ⟨l, hl, -, hpos⟩ := charAt_eq_some hcond.1
    have hpos : 0 < (entryLetters (p.offset + headerTrieMap c)).length := by
      rw [entryLetters_eq hq hl, List.length_map]
      exact hpos hc
    have hfirst : (entryLetters (p.offset + headerTrieMap c))[0]? = some c := by
      rw [← hcond.1, charAt_entryLetters hq hl, List.getElem?_append_left hpos]
    have hstem : intsOf (stems.getD (p.offset + headerTrieMap c) "") = w :=
      table_children _ hx _ (by omega) q hq (isSome_pfx hl) hcond.2
    have hlen : 1 ≤ l.length := by
      rw [entryLetters_eq hq hl, List.length_map] at hpos
      exact hpos
    refine ⟨_, rfl, .inr ⟨by simp, .inr ⟨q, l, hq, hl, hlen⟩⟩, ?_⟩
    rw [spelt, hstem]
    congr 1
    show (entryLetters (p.offset + headerTrieMap c)).take 1 = [c]
    rw [List.take_one, List.head?_eq_getElem?, hfirst]
    rfl
  · right
    rw [if_neg hcond]
    refine ⟨rfl, fun r hr hpre => hcond ?_⟩
    have hw : w <+: headerName r := (List.prefix_append w [c]).trans hpre
    obtain ⟨q', hq', h⟩ := table_complete _ hx r hr hw c (getElem?_of_stem hpre)
    rw [hq, Option.mem_some_iff] at hq'
    rw [hq']
    exact h

theorem spelt_inside {t : Triestate} (h0 : t.poff ≠ 0) (hlt : t.poff < (entryLetters t.slot).length)
    (hs : t.slot < 59) {v : List Int} (hv : v ∈ headerCodes.map headerName ++ branchings)
    (hpre : spelt t <+: v) : entryPath t.slot <+: v := by
  refine table_inside t.slot hs v hv (List.ne_nil_of_length_pos (by omega)) (List.IsPrefix.trans ?_ hpre)
  exact (List.prefix_append_right_inj _).mpr (List.take_prefix_take_left (by show 1 ≤ t.poff; omega))

theorem placed_cases {t : Triestate} (ht : Placed t) :
    t = ⟨0, 0⟩ ∨ ∃ p w, t.poff ≠ 0 ∧ headers[t.slot]? = some p ∧ p.letters = some w ∧
      t.poff ≤ (entryLetters t.slot).length := by
  obtain ht | ⟨h0, h0' | ⟨p, w, hp, hw, hle⟩⟩ := ht
  · exact .inl ht
  · exact absurd h0' h0
  · exact .inr ⟨p, w, h0, hp, hw, by rw [entryLetters_eq hp hw, List.length_map]; exact hle⟩

/-- **A letter moves the cursor along the names.** -/
theorem headerWalk_letter {t : Triestate} (ht : Placed t) {c : Int} (h58 : c ≠ 58) (h0 : c ≠ 0) :
    (∃ t', headerWalk c t = some (0, t') ∧ Placed t' ∧ spelt t' = spelt t ++ [c]) ∨
    (headerWalk c t = some (-1, t) ∧ ∀ r ∈ headerCodes, ¬spelt t ++ [c] <+: headerName r) := by
  unfold headerWalk walkTrie
  rw [if_neg h58]
  obtain rfl | ⟨p, w, hpoff, hp, hw, hle⟩ := placed_cases ht
  · rw [if_neg (by simp), spelt_start]
    simp only [Option.bind_eq_bind, Option.bind_some]
    exact enterChild_spelt (List.mem_cons_self ..) h0 _
  · rw [if_pos hpoff]
    simp only [hp, Option.bind_eq_bind, Option.bind_some, charAt_entryLetters hp hw]
    obtain hlt | hend := Nat.lt_or_eq_of_le hle
    · -- inside the entry
      set x := (entryLetters t.slot)[t.poff] with hxdef
      have hx : (entryLetters t.slot)[t.poff]? = some x := List.getElem?_eq_getElem hlt
      have hx0 : x ≠ 0 := entryLetters_ne_zero hp hw (List.getElem_mem hlt)
      rw [List.getElem?_append_left hlt, hx, Option.bind_some, if_neg (fun h => hx0 h.1), if_neg hx0]
      by_cases hxc : x = c
      · left
        rw [if_pos hxc]
        refine ⟨_, rfl, .inr ⟨by simp, .inr ⟨p, w, hp, hw, ?_⟩⟩, ?_⟩
        · rw [entryLetters_eq hp hw, List.length_map] at hlt
          exact hlt
        · rw [spelt_succ hx, hxc]
      · right
        rw [if_neg hxc]
        refine ⟨rfl, fun r hr hpre => hxc ?_⟩
        have hpath := spelt_inside hpoff hlt (slot_lt hp)
          (List.mem_append_left _ (List.mem_map_of_mem hr)) ((List.prefix_append _ [c]).trans hpre)
        have hnext : spelt t ++ [x] <+: entryPath t.slot := by
          rw [← spelt_succ hx]
          exact spelt_prefix_entryPath _
        have := (getElem?_of_stem (hnext.trans hpath)).symm.trans (getElem?_of_stem hpre)
        exact Option.some.inj this
    · rw [List.getElem?_append_right (by omega), hend, Nat.sub_self]
      simp only [List.getElem?_cons_zero, Option.bind_some, h0, and_false, if_false, if_true]
      rw [spelt_end hend]
      exact enterChild_spelt (List.mem_cons_of_mem _ (mem_trieEntries hp (isSome_pfx hw))) h0 t

/-- **The end of a name is answered by what has been spelt.** -/
theorem headerWalk_end {t : Triestate} (ht : Placed t) {c : Int} (hc : c = 58 ∨ c = 0) :
    (headerWalk c t = some (-1, t) ∧ (∀ r ∈ headerCodes, headerName r ≠ spelt t) ∧
      spelt t ∉ branchings) ∨
    (headerWalk c t = some (0, t) ∧ spelt t ∈ branchings) ∨
    ∃ r ∈ headerCodes, headerWalk c t = some ((r : Int), t) ∧ headerName r = spelt t := by
  have hwalk : headerWalk c t = walkTrie 0 27 headers (some patinitialHeaders) t := by
    rcases hc with rfl | rfl <;> rfl
  rw [hwalk]
  unfold walkTrie
  obtain rfl | ⟨p, w, hpoff, hp, hw, hle⟩ := placed_cases ht
  · left
    rw [spelt_start]
    exact ⟨by decide, nil_no_name.1, nil_no_name.2⟩
  · rw [if_pos hpoff]
    simp only [hp, Option.bind_eq_bind, Option.bind_some, charAt_entryLetters hp hw]
    obtain hlt | hend := Nat.lt_or_eq_of_le hle
    · left
      set x := (entryLetters t.slot)[t.poff] with hxdef
      have hx : (entryLetters t.slot)[t.poff]? = some x := List.getElem?_eq_getElem hlt
      have hx0 : x ≠ 0 := entryLetters_ne_zero hp hw (List.getElem_mem hlt)
      rw [List.getElem?_append_left hlt, hx, Option.bind_some, if_neg (fun h => hx0 h.1), if_neg hx0,
        if_neg hx0]
      have hno : ∀ v ∈ headerCodes.map headerName ++ branchings, v ≠ spelt t := by
        rintro v hv rfl
        have hpath := (spelt_inside hpoff hlt (slot_lt hp) hv (List.prefix_refl _)).length_le
        rw [entryPath_eq, spelt] at hpath
        simp only [List.length_append, List.length_take] at hpath
        omega
      refine ⟨rfl, fun r hr => hno _ (List.mem_append_left _ (List.mem_map_of_mem hr)), fun hb => ?_⟩
      exact hno _ (List.mem_append_right _ hb) rfl
    · right
      rw [List.getElem?_append_right (by omega), hend, Nat.sub_self]
      simp only [List.getElem?_cons_zero, Option.bind_some, and_self, if_true]
      rw [spelt_end hend]
      rcases table_terminal _ (mem_trieEntries hp (isSome_pfx hw)) with ⟨h0, hb⟩ | ⟨hr, hname⟩
      · left
        exact ⟨by rw [show p.terminal = 0 from h0]; rfl, hb⟩
      · exact .inr ⟨p.terminal, hr, rfl, hname.symm⟩

end MinuteHttp
