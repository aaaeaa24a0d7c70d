import MinuteHttp.Minuted.Config
import Mathlib.Data.List.TakeWhile

/-!
# What a configuration listens to

`listeners_right_iff`: after a script, every listener serves what its successful `listen` commands ask
for, and failed ones have changed nothing, exactly where every failed command finds its listener there
with the names before the unknown one already in it, `+` is not mixed with names (unless these are all
vhosts), and no listener is given the empty list only.
-/

namespace MinuteHttp

open Feed

variable {α : Type}

/-! ## The specification -/

/-- The list of vhosts is malformed, or has an unknown name. -/
def Unlistable (vhosts : Dict String α) (obj : TclObj) : Prop :=
  match obj.list with
  | none => True
  | some names => isPlus obj names = false ∧ ∃ n ∈ names, (vhosts.get n).isSome = false

/-- The `listen` command that succeeds here, if any: its listener and its names. -/
def listened (c : Configuration α) : ConfigCommand α → List (ListenKey × TclObj)
  | .listen [addr, port, vhosts] =>
    if (minutedTclListen [addr, port, vhosts] c).1 = .ok then [((addr.string, port.string), vhosts)]
    else []
  | _ => []

/-- The `listen` commands of a script that succeed. -/
def successes (c : Configuration α) : List (ConfigCommand α) → List (ListenKey × TclObj)
  | [] => []
  | cmd :: cmds => listened c cmd ++ successes (cmd.exec c).2 cmds

/-- The command names `+`. -/
def NamesAll (obj : TclObj) : Prop := ∃ names, obj.list = some names ∧ isPlus obj names = true

/-- The command lists the vhost `n`. -/
def Lists (obj : TclObj) (n : String) : Prop :=
  ∃ names, obj.list = some names ∧ isPlus obj names = false ∧ n ∈ names

/-- Some successful command for the listener names `+`, or lists `n`. -/
def AllAsked (ok : List (ListenKey × TclObj)) (key : ListenKey) : Prop :=
  ∃ obj, (key, obj) ∈ ok ∧ NamesAll obj

def Asked (ok : List (ListenKey × TclObj)) (key : ListenKey) (n : String) : Prop :=
  ∃ obj, (key, obj) ∈ ok ∧ Lists obj n

/-- A command that fails leaves the table of listeners as it was. -/
def KeepsTable (c : Configuration α) (cmd : ConfigCommand α) : Prop :=
  (cmd.exec c).1 ≠ .ok → (cmd.exec c).2.listen = c.listen

/-- The listener serves all configured vhosts if `+` was asked for, and else the ones that were. -/
def ServesAsked (c : Configuration α) (ok : List (ListenKey × TclObj)) (key : ListenKey) : Prop :=
  ∃ d, (minutedServeListen c).get key = some d ∧
    (AllAsked ok key → ∀ n, (d.get n).isSome = true ↔ (c.vhosts.get n).isSome = true) ∧
    (¬AllAsked ok key → ∀ n, (d.get n).isSome = true ↔ Asked ok key n)

/-- What a script is to leave behind. -/
structure ListenersRight (cmds : List (ConfigCommand α)) : Prop where
  serves : ∀ key obj, (key, obj) ∈ successes (.empty α) cmds →
    ServesAsked (configure (.empty α) cmds) (successes (.empty α) cmds) key
  keeps : Along configStep KeepsTable (.empty α) cmds

/-! ## The condition -/

/-- The names that a command puts into its listener: those before the first unknown one. -/
def putNames (vhosts : Dict String α) (obj : TclObj) : List String :=
  match obj.list with
  | none => []
  | some names =>
    if isPlus obj names then [] else names.takeWhile fun n => (vhosts.get n).isSome

/-- If the command fails on its list, its listener is there, with the names before the first unknown
one in it. -/
def FailsClean (c : Configuration α) : ConfigCommand α → Prop
  | .listen [addr, port, vhosts] =>
    Unlistable c.vhosts vhosts →
      ∃ d, c.listen.get (addr.string, port.string) = some d ∧
        ∀ n ∈ putNames c.vhosts vhosts, (d.get n).isSome = true
  | _ => True

/-- `+` comes without names or with all of them, and a listener without `+` has some name. -/
def AsksClearly (c : Configuration α) (ok : List (ListenKey × TclObj)) (key : ListenKey) : Prop :=
  (AllAsked ok key →
    (∀ n, ¬Asked ok key n) ∨ ∀ n, (c.vhosts.get n).isSome = true → Asked ok key n) ∧
  (¬AllAsked ok key → (∃ n, Asked ok key n) ∨ ∀ n, (c.vhosts.get n).isSome = false)

/-- The scripts that the code reads as they are meant. -/
structure ListenersClear (cmds : List (ConfigCommand α)) : Prop where
  asks : ∀ key obj, (key, obj) ∈ successes (.empty α) cmds →
    AsksClearly (configure (.empty α) cmds) (successes (.empty α) cmds) key
  fails : Along configStep FailsClean (.empty α) cmds

/-! ## One command -/

/-- The names in a listener's dictionary. -/
def entered (c : Configuration α) (key : ListenKey) (n : String) : Prop :=
  ∃ d, c.listen.get key = some d ∧ (d.get n).isSome = true

/-- What a listener holds for a vhost is what the vhost's name stands for. -/
def Agrees (c : Configuration α) : Prop :=
  ∀ key d n o, c.listen.get key = some d → d.get n = some o → c.vhosts.get n = some o

theorem listenNames_ok {vhosts : Dict String α} {names : List String} {d : Dict String α} :
    (listenNames vhosts names d).1 = .ok ↔ ∀ n ∈ names, (vhosts.get n).isSome = true := by
  induction names generalizing d with
  | nil => simp [listenNames]
  | cons n names ih =>
    unfold listenNames
    cases hn : vhosts.get n with
    | none => simp [hn]
    | some o => simp [hn, ih]

theorem get_listenNames {vhosts : Dict String α} {names : List String} {d : Dict String α} (m : String) :
    (listenNames vhosts names d).2.get m =
      if m ∈ names.takeWhile fun n => (vhosts.get n).isSome then vhosts.get m else d.get m := by
  induction names generalizing d with
  | nil => simp [listenNames]
  | cons n names ih =>
    unfold listenNames
    cases hn : vhosts.get n with
    | none => simp [hn]
    | some o =>
      simp only [ih, List.takeWhile_cons, hn, Option.isSome_some, if_true, List.mem_cons]
      by_cases hm : m ∈ names.takeWhile fun n => (vhosts.get n).isSome
      · rw [if_pos hm, if_pos (.inr hm)]
      · rw [if_neg hm]
        by_cases hmn : m = n
        · rw [if_pos (.inl hmn), hmn, Dict.get_put_self, hn]
        · rw [if_neg (by simp [hmn, hm]), Dict.get_put_other fun h => hmn h.symm]

theorem listenNames_eq_self {vhosts : Dict String α} {names : List String} {d : Dict String α}
    (h : ∀ n ∈ names.takeWhile fun n => (vhosts.get n).isSome, vhosts.get n = d.get n) :
    (listenNames vhosts names d).2 = d := by
  induction names with
  | nil => rfl
  | cons n names ih =>
    unfold listenNames
    cases hn : vhosts.get n with
    | none => rfl
    | some o =>
      simp only [List.takeWhile_cons, hn, Option.isSome_some, if_true, List.mem_cons, forall_eq_or_imp] at h
      show (listenNames vhosts names (d.put n o)).2 = d
      rw [Dict.put_eq_self h.1.symm]
      exact ih h.2

section listen

variable (c : Configuration α) (addr port obj : TclObj)

theorem listen_ok_iff :
    (minutedTclListen [addr, port, obj] c).1 = .ok ↔ ¬Unlistable c.vhosts obj := by
  obtain ⟨string, list⟩ := obj
  unfold minutedTclListen Unlistable
  cases list with
  | none => simp
  | some names =>
    cases hp : isPlus ⟨string, some names⟩ names with
    | true => simp [hp]
    | false => simp [hp, listenNames_ok, Option.isSome_iff_ne_none]

/-- The listener's dictionary after the command. -/
theorem listen_exec : ∃ d, (minutedTclListen [addr, port, obj] c).2 =
      { c with listen := c.listen.put (addr.string, port.string) d } ∧
    (∀ m, d.get m = if m ∈ putNames c.vhosts obj then c.vhosts.get m
      else ((c.listen.get (addr.string, port.string)).getD []).get m) ∧
    ((∀ m ∈ putNames c.vhosts obj, c.vhosts.get m =
        ((c.listen.get (addr.string, port.string)).getD []).get m) →
      d = (c.listen.get (addr.string, port.string)).getD []) := by
  obtain ⟨string, list⟩ := obj
  unfold minutedTclListen putNames
  cases list with
  | none => exact ⟨_, rfl, by simp, fun _ => rfl⟩
  | some names =>
    cases hp : isPlus ⟨string, some names⟩ names with
    | true =>
      refine ⟨(c.listen.get (addr.string, port.string)).getD [], by simp [hp], by simp [hp], fun _ => rfl⟩
    | false =>
      refine ⟨(listenNames c.vhosts names ((c.listen.get (addr.string, port.string)).getD [])).2,
        by simp [hp], fun m => ?_, fun h => ?_⟩
      · simp only [hp, Bool.false_eq_true, if_false]
        exact get_listenNames m
      · exact listenNames_eq_self (by simpa [hp] using h)

theorem known_of_putNames {n : String} (h : n ∈ putNames c.vhosts obj) : (c.vhosts.get n).isSome = true := by
  unfold putNames at h
  split at h
  · cases h
  · split at h
    · cases h
    · exact List.mem_takeWhile_imp (p := fun n => (c.vhosts.get n).isSome) h

/-- Of a command that succeeds, the names put are the ones listed. -/
theorem mem_putNames_iff (h : ¬Unlistable c.vhosts obj) (n : String) :
    n ∈ putNames c.vhosts obj ↔ Lists obj n := by
  obtain ⟨string, list⟩ := obj
  unfold Unlistable at h
  unfold putNames Lists
  cases list with
  | none => simp at h
  | some names =>
    simp only [not_and, not_exists, Bool.not_eq_false] at h
    cases hp : isPlus ⟨string, some names⟩ names with
    | true => simp [hp]
    | false =>
      have hall : ∀ n ∈ names, (c.vhosts.get n).isSome = true := fun n hn => by
        simpa using h hp n hn
      simp [hp, List.takeWhile_eq_self_iff.mpr hall]

end listen

theorem Agrees.exec {c : Configuration α} (h : Agrees c) (cmd : ConfigCommand α) : Agrees (cmd.exec c).2 := by
  cases cmd with
  | vhost objv eval =>
    show Agrees (minutedTclVhost objv eval c).2
    unfold minutedTclVhost
    split
    · rename_i name body
      split
      · exact h
      · rename_i hnew
        split
        · intro key d n o hd ho
          have hc := h key d n o hd ho
          show (c.vhosts.put name.string eval.2).get n = some o
          rw [Dict.get_put_other]
          · exact hc
          · rintro rfl
            rw [hc] at hnew
            exact hnew rfl
        · exact h
    · exact h
  | listen objv =>
    show Agrees (minutedTclListen objv c).2
    by_cases hobjv : ∃ addr port obj, objv = [addr, port, obj]
    · obtain ⟨addr, port, obj, rfl⟩ := hobjv
      obtain ⟨d, hexec, hget, -⟩ := listen_exec c addr port obj
      rw [hexec]
      intro key d' n o hd' ho
      have hd' : (c.listen.put (addr.string, port.string) d).get key = some d' := hd'
      show c.vhosts.get n = some o
      rw [Dict.get_put] at hd'
      by_cases hkey : (addr.string, port.string) = key
      · rw [if_pos hkey, Option.some.injEq] at hd'
        subst hd'
        rw [hget n] at ho
        split at ho
        · exact ho
        · rw [hkey] at ho
          cases hold : c.listen.get key with
          | none => simp [hold] at ho
          | some d₀ =>
            rw [hold] at ho
            exact h key d₀ n o hold ho
      · rw [if_neg hkey] at hd'
        exact h key d' n o hd' ho
    · have hsame : (minutedTclListen objv c).2 = c := by
        unfold minutedTclListen
        split
        · exact absurd ⟨_, _, _, rfl⟩ hobjv
        · rfl
      rw [hsame]
      exact h

theorem vhost_listen (objv : List TclObj) (eval : TclResult × α) (c : Configuration α) :
    (minutedTclVhost objv eval c).2.listen = c.listen := by
  unfold minutedTclVhost
  split
  · split
    · rfl
    · split <;> rfl
  · rfl

/-- A `listen` command with another number of words does nothing. -/
theorem listen_wrongArgs {objv : List TclObj} (h : ∀ addr port obj, objv ≠ [addr, port, obj])
    (c : Configuration α) : minutedTclListen objv c = (.error, c) := by
  unfold minutedTclListen
  split
  · exact absurd rfl (h _ _ _)
  · rfl

theorem failsClean_wrongArgs {objv : List TclObj} (h : ∀ addr port obj, objv ≠ [addr, port, obj])
    (c : Configuration α) : FailsClean c (.listen objv) ∧ listened c (.listen objv) = [] := by
  constructor
  · unfold FailsClean
    split
    · rename_i heq
      injection heq with heq
      exact absurd heq (h _ _ _)
    · trivial
  · unfold listened
    split
    · rename_i heq
      injection heq with heq
      exact absurd heq (h _ _ _)
    · rfl

theorem keepsTable_iff {c : Configuration α} (h : Agrees c) (cmd : ConfigCommand α) :
    KeepsTable c cmd ↔ FailsClean c cmd := by
  cases cmd with
  | vhost objv eval =>
    have hkeep : KeepsTable c (.vhost objv eval) := fun _ => vhost_listen objv eval c
    exact ⟨fun _ => trivial, fun _ => hkeep⟩
  | listen objv =>
    by_cases hobjv : ∃ addr port obj, objv = [addr, port, obj]
    · obtain ⟨addr, port, obj, rfl⟩ := hobjv
      obtain ⟨d, hexec, hget, hsame⟩ := listen_exec c addr port obj
      have hkeeps : KeepsTable c (.listen [addr, port, obj]) ↔
          (Unlistable c.vhosts obj → c.listen.put (addr.string, port.string) d = c.listen) := by
        unfold KeepsTable
        show ((minutedTclListen [addr, port, obj] c).1 ≠ .ok →
          (minutedTclListen [addr, port, obj] c).2.listen = c.listen) ↔ _
        rw [hexec, ne_eq, listen_ok_iff, not_not]
      rw [hkeeps]
      refine imp_congr_right fun _ => ⟨fun hput => ?_, fun ⟨d₀, hd₀, hin⟩ => ?_⟩
      · refine ⟨d, ?_, fun n hn => ?_⟩
        · rw [← hput, Dict.get_put_self]
        · rw [hget n, if_pos hn]
          exact known_of_putNames c obj hn
      · have hold : (c.listen.get (addr.string, port.string)).getD [] = d₀ := by rw [hd₀]; rfl
        rw [hold] at hsame
        have hd : d = d₀ := hsame fun m hm => by
          obtain ⟨o, ho⟩ := Option.isSome_iff_exists.mp (hin m hm)
          rw [ho, h _ d₀ m o hd₀ ho]
        rw [hd]
        exact Dict.put_eq_self hd₀
    · have hobjv : ∀ addr port obj, objv ≠ [addr, port, obj] := by simpa using hobjv
      have hkeep : KeepsTable c (.listen objv) := fun _ => by
        show (minutedTclListen objv c).2.listen = c.listen
        rw [listen_wrongArgs hobjv]
      exact ⟨fun _ => (failsClean_wrongArgs hobjv c).1, fun _ => hkeep⟩

theorem KeepsTable.entered_iff {c : Configuration α} {cmd : ConfigCommand α} (h : KeepsTable c cmd)
    (key : ListenKey) :
    (((cmd.exec c).2.listen.get key).isSome = true ↔
      (c.listen.get key).isSome = true ∨ ∃ obj, (key, obj) ∈ listened c cmd) ∧
    ∀ n, entered (cmd.exec c).2 key n ↔
      entered c key n ∨ ∃ obj, (key, obj) ∈ listened c cmd ∧ Lists obj n := by
  have hunchanged : (cmd.exec c).2.listen = c.listen → listened c cmd = [] →
      (((cmd.exec c).2.listen.get key).isSome = true ↔
        (c.listen.get key).isSome = true ∨ ∃ obj, (key, obj) ∈ listened c cmd) ∧
      ∀ n, entered (cmd.exec c).2 key n ↔
        entered c key n ∨ ∃ obj, (key, obj) ∈ listened c cmd ∧ Lists obj n := by
    intro hlisten hnone
    unfold entered
    rw [hlisten, hnone]
    simp
  cases cmd with
  | vhost objv eval => exact hunchanged (vhost_listen objv eval c) rfl
  | listen objv =>
    by_cases hobjv : ∃ addr port obj, objv = [addr, port, obj]
    · obtain ⟨addr, port, obj, rfl⟩ := hobjv
      by_cases hok : (minutedTclListen [addr, port, obj] c).1 = .ok
      · obtain ⟨d, hexec, hget, -⟩ := listen_exec c addr port obj
        have hlisten : ((ConfigCommand.listen [addr, port, obj]).exec c).2.listen =
            c.listen.put (addr.string, port.string) d := congrArg Configuration.listen hexec
        have hlisted : listened c (.listen [addr, port, obj]) = [((addr.string, port.string), obj)] :=
          if_pos hok
        have hnames := mem_putNames_iff c obj ((listen_ok_iff c addr port obj).mp hok)
        unfold entered
        rw [hlisten, hlisted, Dict.get_put]
        by_cases hkey : (addr.string, port.string) = key
        · rw [if_pos hkey]
          refine ⟨by simp [hkey], fun n => ?_⟩
          simp only [Option.some.injEq, exists_eq_left', List.mem_singleton, Prod.mk.injEq, hkey, true_and,
            exists_eq_left]
          rw [hget n, ← hnames n, hkey]
          by_cases hn : n ∈ putNames c.vhosts obj
          · rw [if_pos hn]
            simp [hn, known_of_putNames c obj hn]
          · rw [if_neg hn]
            cases c.listen.get key <;> simp [hn]
        · rw [if_neg hkey]
          have hne : ∀ obj', (key, obj') ≠ ((addr.string, port.string), obj) := fun obj' he =>
            hkey (congrArg Prod.fst he).symm
          simp [hne]
      · exact hunchanged (h hok) (if_neg hok)
    · have hobjv : ∀ addr port obj, objv ≠ [addr, port, obj] := by simpa using hobjv
      refine hunchanged ?_ (failsClean_wrongArgs hobjv c).2
      show (minutedTclListen objv c).2.listen = c.listen
      rw [listen_wrongArgs hobjv]

/-! ## Scripts -/

theorem along_keepsTable_iff {c : Configuration α} (h : Agrees c) (cmds : List (ConfigCommand α)) :
    Along configStep KeepsTable c cmds ↔ Along configStep FailsClean c cmds := by
  induction cmds generalizing c with
  | nil => exact Iff.rfl
  | cons cmd cmds ih => exact and_congr (keepsTable_iff h cmd) (ih (h.exec cmd))

theorem entered_configure {c : Configuration α} {cmds : List (ConfigCommand α)}
    (h : Along configStep KeepsTable c cmds) (key : ListenKey) :
    (((configure c cmds).listen.get key).isSome = true ↔
      (c.listen.get key).isSome = true ∨ ∃ obj, (key, obj) ∈ successes c cmds) ∧
    ∀ n, entered (configure c cmds) key n ↔
      entered c key n ∨ ∃ obj, (key, obj) ∈ successes c cmds ∧ Lists obj n := by
  induction cmds generalizing c with
  | nil => simp [configure, successes]
  | cons cmd cmds ih =>
    obtain ⟨hsome, hent⟩ := ih (c := (cmd.exec c).2) h.2
    obtain ⟨hsome₁, hent₁⟩ := h.1.entered_iff key
    refine ⟨?_, fun n => ?_⟩
    · refine hsome.trans ?_
      rw [hsome₁, successes]
      simp only [List.mem_append, exists_or]
      exact or_assoc
    · refine (hent n).trans ?_
      rw [hent₁ n, successes]
      simp only [List.mem_append, or_and_right, exists_or]
      exact or_assoc

theorem serveListen_get (c : Configuration α) (key : ListenKey) :
    (minutedServeListen c).get key =
      (c.listen.get key).map fun v => if v.length = 0 then c.vhosts else v :=
  Dict.get_map (fun v : Dict String α => if List.length v = 0 then c.vhosts else v) c.listen key

theorem agrees_configure {c : Configuration α} (h : Agrees c) (cmds : List (ConfigCommand α)) :
    Agrees (configure c cmds) := by
  induction cmds generalizing c with
  | nil => exact h
  | cons cmd cmds ih => exact ih (h.exec cmd)

theorem agrees_empty : Agrees (Configuration.empty α) := by
  intro key d n o hd
  cases hd

/-- The vhosts that a listener of a script serves, where failures have changed nothing. -/
theorem serves_get {cmds : List (ConfigCommand α)} (h : Along configStep KeepsTable (.empty α) cmds)
    {key : ListenKey} {obj : TclObj} (hobj : (key, obj) ∈ successes (.empty α) cmds) :
    ∃ d, (minutedServeListen (configure (.empty α) cmds)).get key = some d ∧
      ((∃ n, Asked (successes (.empty α) cmds) key n) → ∀ n, (d.get n).isSome = true ↔
        Asked (successes (.empty α) cmds) key n) ∧
      ((∀ n, ¬Asked (successes (.empty α) cmds) key n) → d = (configure (.empty α) cmds).vhosts) ∧
      ∀ n, Asked (successes (.empty α) cmds) key n →
        ((configure (.empty α) cmds).vhosts.get n).isSome = true := by
  obtain ⟨hsome, hent⟩ := entered_configure h key
  have hnot : ∀ n, ¬entered (Configuration.empty α) key n := by
    rintro n ⟨d, hd, -⟩
    cases hd
  obtain ⟨v, hv⟩ := Option.isSome_iff_exists.mp (hsome.mpr (.inr ⟨obj, hobj⟩))
  have hasked : ∀ n, (v.get n).isSome = true ↔ Asked (successes (.empty α) cmds) key n := by
    intro n
    have := hent n
    rw [or_iff_right (hnot n)] at this
    rw [Asked, ← this]
    exact ⟨fun hn => ⟨v, hv, hn⟩, fun ⟨d, hd, hn⟩ => Option.some.inj (hv.symm.trans hd) ▸ hn⟩
  refine ⟨if v.length = 0 then (configure (.empty α) cmds).vhosts else v, ?_, fun ⟨n, hn⟩ => ?_,
    fun hnone => ?_, fun n hn => ?_⟩
  · rw [serveListen_get, hv]
    rfl
  · have hv0 : v ≠ [] := by
      rintro rfl
      have := (hasked n).mpr hn
      cases this
    rw [if_neg (by simpa using hv0)]
    exact hasked
  · have hv0 : v = [] := Dict.eq_nil_iff.mpr fun n => by
      simpa using mt (hasked n).mp (hnone n)
    rw [if_pos (by simp [hv0])]
  · obtain ⟨o, ho⟩ := Option.isSome_iff_exists.mp ((hasked n).mpr hn)
    rw [agrees_configure agrees_empty cmds key v n o hv ho]
    rfl

/-- **A script configures the listeners as it says exactly where it says it clearly.** -/
theorem listeners_right_iff (cmds : List (ConfigCommand α)) : ListenersRight cmds ↔ ListenersClear cmds := by
  constructor
  · rintro ⟨hserves, hkeeps⟩
    refine ⟨fun key obj hobj => ?_, (along_keepsTable_iff agrees_empty cmds).mp hkeeps⟩
    obtain ⟨d, hd, hsome, hnone, -⟩ := serves_get hkeeps hobj
    obtain ⟨d', hd', hall, hnames⟩ := hserves key obj hobj
    obtain rfl : d = d' := Option.some.inj (hd.symm.trans hd')
    by_cases hex : ∃ n, Asked (successes (.empty α) cmds) key n
    · refine ⟨fun hplus => .inr fun n hn => ?_, fun _ => .inl hex⟩
      exact (hsome hex n).mp ((hall hplus n).mpr hn)
    · have hno : ∀ n, ¬Asked (successes (.empty α) cmds) key n := fun n hn => hex ⟨n, hn⟩
      refine ⟨fun _ => .inl hno, fun hplus => .inr fun n => ?_⟩
      have hiff := hnames hplus n
      rw [hnone hno] at hiff
      simpa using mt hiff.mp (hno n)
  · rintro ⟨hasks, hfails⟩
    have hkeeps := (along_keepsTable_iff agrees_empty cmds).mpr hfails
    refine ⟨fun key obj hobj => ?_, hkeeps⟩
    obtain ⟨d, hd, hsome, hnone, hknown⟩ := serves_get hkeeps hobj
    obtain ⟨hplus, hplain⟩ := hasks key obj hobj
    refine ⟨d, hd, fun hall n => ?_, fun hall n => ?_⟩
    · by_cases hex : ∃ n, Asked (successes (.empty α) cmds) key n
      · rw [hsome hex n]
        obtain hno | hevery := hplus hall
        · obtain ⟨m, hm⟩ := hex
          exact absurd hm (hno m)
        · exact ⟨hknown n, hevery n⟩
      · rw [hnone fun n hn => hex ⟨n, hn⟩]
    · by_cases hex : ∃ n, Asked (successes (.empty α) cmds) key n
      · exact hsome hex n
      · have hno : ∀ n, ¬Asked (successes (.empty α) cmds) key n := fun n hn => hex ⟨n, hn⟩
        have hnov := (hplain hall).resolve_left hex
        rw [hnone hno, hnov n]
        simp [hno n]

/-- The script `listen * 80 a; listen * 80 +`, with two vhosts: `b` is not served. -/
theorem listeners_mixed :
    let obj (s : String) : TclObj := ⟨s, some [s]⟩
    ¬ListenersRight [.vhost [obj "a", obj ""] (.ok, ()), .vhost [obj "b", obj ""] (.ok, ()),
      .listen [obj "*", obj "80", obj "a"], .listen [obj "*", obj "80", obj "+"]] := by
  intro obj h
  obtain ⟨d, hd, hall, -⟩ := h.serves ("*", "80") (obj "+") (by decide +kernel)
  have hserved := (hall ⟨obj "+", by decide +kernel, ["+"], rfl, by decide⟩ "b").mpr (by decide +kernel)
  rw [show d = [("a", ())] from Option.some.inj (hd.symm.trans (by decide +kernel))] at hserved
  cases hserved

theorem failed_listen_serves_all (c : Configuration α) (addr port obj : TclObj)
    (hnew : c.listen.get (addr.string, port.string) = none) (hput : putNames c.vhosts obj = []) :
    (minutedServeListen (minutedTclListen [addr, port, obj] c).2).get (addr.string, port.string) =
      some c.vhosts := by
  obtain ⟨d, hexec, -, hsame⟩ := listen_exec c addr port obj
  have hd : d = [] := by
    rw [hnew, hput] at hsame
    exact hsame fun m hm => by cases hm
  rw [serveListen_get, hexec]
  show (Dict.get (c.listen.put (addr.string, port.string) d) (addr.string, port.string)).map _ = _
  rw [Dict.get_put_self, hd]
  rfl

end MinuteHttp
