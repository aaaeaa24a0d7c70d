import MinuteHttp.Libhttp.DoubleHeaded
import MinuteHttp.Minuted.Listeners
import MinuteHttp.Minuted.TapHandle

/-!
# Which vhost answers

`minuted_serve_load` and `minuted_serve_listen` make the tables in which `minuted_tap_head` looks up the vhost for the
host of a request. Whatever the configuration script does, the tables agree: every name that a listener serves has its
number, and the application loaded for the name is under that number (`tapHead_dispatch`).
-/

namespace MinuteHttp

open Effect

variable {τ α : Type}

/-! ## Loading -/

/-- The bytes of a Tcl string (Tcl writes a NUL inside as two bytes, which no host has here). -/
def utf8 (s : String) : List Byte := s.toByteArray.data.toList.map UInt8.toBitVec

theorem utf8_inj {s t : String} : utf8 s = utf8 t ↔ s = t := by
  constructor
  · intro h
    have hbytes : s.toByteArray.data.toList = t.toByteArray.data.toList :=
      List.map_injective_iff.mpr (fun x y hxy => UInt8.toBitVec_inj.mp hxy) h
    exact String.toByteArray_inj.mp (ByteArray.ext (Array.toList_inj.mp hbytes))
  · intro h
    rw [h]

/-- The loop of `minuted_serve_load` from `rs->tap.v[i]` on. What becomes of an application is `load`, with no result
where the function gives up. -/
def serveLoadFrom (load : α → Option (TapVhost τ)) :
    Nat → Dict (List Byte) (Option Int) → Dict String α → Option (Dict (List Byte) (Option Int) × List (TapVhost τ))
  | _, vhostMap, [] => some (vhostMap, [])
  | i, vhostMap, (name, vhost) :: later =>
    match load vhost with
    | none => none
    | some v =>
      (serveLoadFrom load (i + 1) (vhostMap.put (utf8 name) (some i)) later).map fun r => (r.1, v :: r.2)

/-- `minuted_serve_load` -/
def minutedServeLoad (load : α → Option (TapVhost τ)) (c : Configuration α) :
    Option (Dict (List Byte) (Option Int) × List (TapVhost τ)) := serveLoadFrom load 0 [] c.vhosts

/-- `vhostListen[i]`, of which only the names are looked up. -/
def vhostListen (c : Configuration α) (i : Nat) : Dict (List Byte) Unit :=
  ((minutedServeListen c)[i]?.elim [] fun p => p.2).map fun q => (utf8 q.1, ())

/-- What `minuted_serve` sets up before it serves. -/
def minutedServe (load : α → Option (TapVhost τ)) (c : Configuration α) : Option (TapRuntime τ) :=
  (minutedServeLoad load c).map fun r => ⟨vhostListen c, r.1, r.2⟩

section

variable {load : α → Option (TapVhost τ)} {i : Nat} {m m' : Dict (List Byte) (Option Int)} {d : Dict String α}
  {vs : List (TapVhost τ)}

theorem serveLoadFrom_other (h : serveLoadFrom load i m d = some (m', vs)) {k : List Byte}
    (hk : ∀ p ∈ d, utf8 p.1 ≠ k) : m'.get k = m.get k := by
  induction d generalizing i m vs with
  | nil =>
    cases h
    rfl
  | cons p d ih =>
    obtain ⟨name, vhost⟩ := p
    rw [serveLoadFrom] at h
    split at h
    · cases h
    · obtain ⟨r, hr, hvs⟩ := Option.map_eq_some_iff.mp h
      cases hvs
      rw [ih hr fun p hp => hk p (.tail _ hp), Dict.get_put_other (hk _ (.head _))]

/-- **Every vhost is where its number says.** -/
theorem serveLoadFrom_found (h : serveLoadFrom load i m d = some (m', vs)) (hd : (d.map Prod.fst).Nodup)
    {name : String} {vhost : α} (hm : (name, vhost) ∈ d) :
    ∃ j v, m'.get (utf8 name) = some (some ((i + j : Nat) : Int)) ∧ vs[j]? = some v ∧ load vhost = some v := by
  induction d generalizing i m vs with
  | nil => cases hm
  | cons p d ih =>
    obtain ⟨name', vhost'⟩ := p
    rw [List.map_cons, List.nodup_cons] at hd
    rw [serveLoadFrom] at h
    split at h
    · cases h
    · rename_i v hv
      obtain ⟨⟨m₁, vs₁⟩, hr, hvs⟩ := Option.map_eq_some_iff.mp h
      cases hvs
      rcases List.mem_cons.mp hm with heq | hm
      · cases heq
        refine ⟨0, v, ?_, rfl, hv⟩
        have hlater : ∀ p ∈ d, utf8 p.1 ≠ utf8 name := by
          intro p hp heq
          exact hd.1 (List.mem_map.mpr ⟨p, hp, utf8_inj.mp heq⟩)
        rw [serveLoadFrom_other hr hlater, Dict.get_put_self]
        rfl
      · obtain ⟨j, v', hget, hat, hload⟩ := ih hr hd.2 hm
        refine ⟨j + 1, v', ?_, hat, hload⟩
        rw [hget, Nat.add_right_comm i 1 j]
        rfl

end

/-! ## The configuration -/

/-- No vhost and no listener is there twice. -/
structure Keyed (c : Configuration α) : Prop where
  vhosts : (c.vhosts.map Prod.fst).Nodup
  listen : (c.listen.map Prod.fst).Nodup

theorem Keyed.exec {c : Configuration α} (h : Keyed c) (cmd : ConfigCommand α) : Keyed (cmd.exec c).2 := by
  cases cmd with
  | vhost objv eval =>
    show Keyed (minutedTclVhost objv eval c).2
    unfold minutedTclVhost
    split
    · split
      · exact h
      · split
        · exact ⟨Dict.nodup_put h.vhosts, h.listen⟩
        · exact h
    · exact h
  | listen objv =>
    show Keyed (minutedTclListen objv c).2
    unfold minutedTclListen
    split
    · dsimp only
      split
      · exact ⟨h.vhosts, Dict.nodup_put h.listen⟩
      · split
        · exact ⟨h.vhosts, Dict.nodup_put h.listen⟩
        · exact ⟨h.vhosts, Dict.nodup_put h.listen⟩
    · exact h

theorem keyed_configure {c : Configuration α} (h : Keyed c) (cmds : List (ConfigCommand α)) :
    Keyed (configure c cmds) := by
  induction cmds generalizing c with
  | nil => exact h
  | cons cmd cmds ih => exact ih (h.exec cmd)

/-- What a listener serves is what is configured under the name. -/
theorem serveListen_vhosts {c : Configuration α} (hkeyed : Keyed c) (hagrees : Agrees c) {key : ListenKey}
    {d : Dict String α} (hd : (key, d) ∈ minutedServeListen c) {name : String} {vhost : α}
    (hname : d.get name = some vhost) : c.vhosts.get name = some vhost := by
  obtain ⟨⟨key', d'⟩, hmem, heq⟩ := List.mem_map.mp hd
  dsimp only at heq
  split at heq
  · cases heq
    exact hname
  · cases heq
    exact hagrees key d name vhost (Dict.get_of_mem hkeyed.listen hmem) hname

/-! ## A request -/

/-- `name` is the vhost for `host` on a listener: the host's own, or `default` where the host is not served. -/
def Answers (d : Dict String α) (host : List Byte) (name : String) : Prop :=
  (d.get name).isSome = true ∧
    (utf8 name = host ∨ (utf8 name = sDefault ∧ ∀ n, utf8 n = host → (d.get n).isSome = false))

/-- `headers` of the vhost `v`, which is `rs->v[j]`, and the end of `minuted_tap_head`. -/
def headersProc (rq : MinuteHttpRq) (text : Textint) (v : TapVhost τ) (j : Nat) (rqd : TapRqData τ) :
    Prog HeadCall (fun _ => PUnit) (Uint × TapRqData τ) :=
  ((v.headers (rqd.oPath.getD []) (rqd.oQuery.getD []) rqd.tcl).translate (tapTclHeadersMeta rq text)).bind
    fun (r, tcl) =>
      let rqd := { rqd with vhost := some j, tcl }
      match r with
      | none => .done (tapHeadEnd rq 500 rqd)
      | some resObj => .done (tapHeadEnd rq (minutedTapStatus resObj) { rqd with status := some resObj })

theorem get_names {d : Dict String α} {k : List Byte} :
    (Dict.get (d.map fun q => (utf8 q.1, ())) k).isSome = true ↔
      ∃ name, utf8 name = k ∧ (d.get name).isSome = true := by
  rw [Dict.isSome_get_iff, List.map_map]
  constructor
  · intro h
    obtain ⟨q, hq, rfl⟩ := List.mem_map.mp h
    exact ⟨q.1, rfl, Dict.isSome_get_iff.mpr (List.mem_map.mpr ⟨q, hq, rfl⟩)⟩
  · intro h
    obtain ⟨name, rfl, hname⟩ := h
    obtain ⟨q, hq, rfl⟩ := List.mem_map.mp (Dict.isSome_get_iff.mp hname)
    exact List.mem_map.mpr ⟨q, hq, rfl⟩

/-- The key that is looked up is that of a name exactly if the name is to answer. -/
theorem answers_iff (tr : TapRuntime τ) {i : Nat} {d : Dict String α} (text : Textint)
    (hlisten : tr.vhostListen i = d.map fun q => (utf8 q.1, ())) (name : String) :
    Answers d (minutedTapHeadHost text) name ↔
      (d.get name).isSome = true ∧ utf8 name = tapActhost tr i text := by
  unfold Answers tapActhost
  apply and_congr_right
  intro hname
  rw [hlisten]
  dsimp only
  by_cases hhost : (Dict.get (d.map fun q => (utf8 q.1, ())) (minutedTapHeadHost text)).isSome = true
  · rw [if_pos hhost]
    refine ⟨fun h => ?_, .inl⟩
    rcases h with h | ⟨-, hnone⟩
    · exact h
    · rcases get_names.mp hhost with ⟨n, hn, hsome⟩
      rw [hnone n hn] at hsome
      cases hsome
  · rw [if_neg hhost]
    refine ⟨fun h => ?_, fun h => .inr ⟨h, fun n hn => ?_⟩⟩
    · rcases h with h | h
      · exact absurd (get_names.mpr ⟨name, h, hname⟩) hhost
      · exact h.1
    · rw [← Bool.not_eq_true]
      intro hsome
      exact hhost (get_names.mpr ⟨n, hn, hsome⟩)

/-- **Every request gets to the vhost that is configured for it**, whatever commands the script has run: where a
listener serves the host of a request, or else `default`, `headers` is called of the application that was loaded for
that name, and where it serves neither the answer is 410. It is never 500 for want of a vhost. -/
theorem tapHead_dispatch {load : α → Option (TapVhost τ)} {cmds : List (ConfigCommand α)} {tr : TapRuntime τ}
    {i : Nat} {key : ListenKey} {d : Dict String α}
    (hserve : minutedServe load (configure (.empty α) cmds) = some tr)
    (hlisten : (minutedServeListen (configure (.empty α) cmds))[i]? = some (key, d)) (rq : MinuteHttpRq)
    (text : Textint) (rqd : TapRqData τ) :
    let rqd' : TapRqData τ := { rqd with
      oHost := some (tapActhost tr i text), oPath := some (textAt text rq.path), oQuery := some (textAt text rq.query) }
    (∃ name vhost v j, Answers d (minutedTapHeadHost text) name ∧
      (configure (.empty α) cmds).vhosts.get name = some vhost ∧ load vhost = some v ∧ tr.v[j]? = some v ∧
      minutedTapHead tr i rq text rqd = headersProc rq text v j rqd') ∨
    ((∀ name, ¬Answers d (minutedTapHeadHost text) name) ∧
      minutedTapHead tr i rq text rqd = .done (tapHeadEnd rq 410 rqd')) := by
  intro rqd'
  have hempty : Keyed (.empty α) := ⟨List.nodup_nil, List.nodup_nil⟩
  have hkeyed := keyed_configure hempty cmds
  have hagrees := agrees_configure agrees_empty cmds
  generalize configure (.empty α) cmds = c at hserve hlisten hkeyed hagrees ⊢
  obtain ⟨⟨vhostMap, vs⟩, hload, rfl⟩ := Option.map_eq_some_iff.mp hserve
  have hnames : vhostListen c i = d.map fun q => (utf8 q.1, ()) := by
    rw [vhostListen, hlisten]
    rfl
  have hanswers := answers_iff ⟨vhostListen c, vhostMap, vs⟩ text hnames
  generalize hkey : tapActhost ⟨vhostListen c, vhostMap, vs⟩ i text = acthost at hanswers
  by_cases hsome : ((vhostListen c i).get acthost).isSome = true
  · have hserved := hsome
    rw [hnames, get_names] at hserved
    obtain ⟨name, hname, hget⟩ := hserved
    obtain ⟨vhost, hvhost⟩ := Option.isSome_iff_exists.mp hget
    have hconf := serveListen_vhosts hkeyed hagrees (List.mem_of_getElem? hlisten) hvhost
    obtain ⟨j, v, hmap, hat, hv⟩ := serveLoadFrom_found hload hkeyed.vhosts (Dict.mem_of_get hconf)
    rw [hname, Nat.zero_add] at hmap
    refine .inl ⟨name, vhost, v, j, (hanswers name).mpr ⟨hget, hname⟩, hconf, hv, hat, ?_⟩
    have hlt : j < vs.length := (List.getElem?_eq_some_iff.mp hat).1
    unfold minutedTapHead
    dsimp only
    rw [hkey, if_neg (by rw [Option.isNone_iff_eq_none]; exact Option.isSome_iff_ne_none.mp hsome), hmap]
    dsimp only
    rw [if_neg (by omega), Int.toNat_natCast, hat]
    subst hkey
    rfl
  · refine .inr ⟨fun name hname => ?_, ?_⟩
    · obtain ⟨hget, hname⟩ := (hanswers name).mp hname
      rw [hnames] at hsome
      exact hsome (get_names.mpr ⟨name, hname, hget⟩)
    · unfold minutedTapHead
      dsimp only
      rw [hkey, if_pos (by rw [Option.isNone_iff_eq_none]; exact Option.not_isSome_iff_eq_none.mp hsome)]
      subst hkey
      rfl

/-- A request for `b`, where the listener serves `a` and `default`. -/
theorem tapHead_dispatch_default :
    let word (s : String) : TclObj := ⟨s, some [s]⟩
    let cmds : List (ConfigCommand Uint) := [.vhost [word "a", word ""] (.ok, 201),
      .vhost [word "default", word ""] (.ok, 202), .listen [word "::", word "80", ⟨"a default", some ["a", "default"]⟩]]
    let app (status : Uint) : TapVhost Unit := ⟨true, fun _ _ tcl => .done (some ⟨some [some status], by simp⟩, tcl),
      fun _ _ _ tcl => .done (none, tcl), fun _ _ _ tcl => .done (true, tcl)⟩
    let text := (Textint.run (minuteTextintInit 64 fun _ => 0)
      [.putc 0, .puti (BitVec.ofNat 32 HttpRequestHeader.host.code), .puti 1, .putc 98, .putc 0]).2
    let rqd : TapRqData Unit := ⟨none, none, none, none, .unknownMethod, none, 0, ()⟩
    ∃ tr, minutedServe (fun vhost => some (app vhost)) (configure (.empty Uint) cmds) = some tr ∧
      ∃ name vhost v j, Answers [("a", (201 : Uint)), ("default", 202)] (bytes "b") name ∧
        (configure (.empty Uint) cmds).vhosts.get name = some vhost ∧ some (app vhost) = some v ∧ tr.v[j]? = some v ∧
        minutedTapHead tr 0 .zero text rqd = headersProc .zero text v j { rqd with
          oHost := some (tapActhost tr 0 text), oPath := some [], oQuery := some [] } := by
  intro word cmds app text rqd
  have hhost : minutedTapHeadHost text = bytes "b" := by decide +kernel
  have hdefault : Answers [("a", (201 : Uint)), ("default", 202)] (bytes "b") "default" := by
    refine ⟨rfl, .inr ⟨by decide +kernel, fun n hn => ?_⟩⟩
    have hb : utf8 "b" = bytes "b" := by decide +kernel
    rw [← hb, utf8_inj] at hn
    subst hn
    rfl
  have hloads : (minutedServe (fun vhost => some (app vhost)) (configure (.empty Uint) cmds)).isSome = true := by
    decide +kernel
  obtain ⟨tr, hserve⟩ := Option.isSome_iff_exists.mp hloads
  have hlisten : (minutedServeListen (configure (.empty Uint) cmds))[0]? =
      some (("::", "80"), [("a", 201), ("default", 202)]) := by decide +kernel
  have hdispatch := tapHead_dispatch hserve hlisten .zero text rqd
  rw [hhost] at hdispatch
  exact ⟨tr, hserve, hdispatch.resolve_right fun h => h.1 "default" hdefault⟩

end MinuteHttp
