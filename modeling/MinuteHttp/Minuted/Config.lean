import MinuteHttp.Lib.Dict
import MinuteHttp.Lib.Feed

/-!
# The listener configuration (`minuted/config.c`, `minuted_serve_listen` in `minuted/minuted.c`)

A configuration script runs `vhost` and `listen` commands; a command that fails may be caught, and then
the script goes on with what the command has left behind. `exec` is one command. The dictionaries and
lists are Tcl's; of the argument that names the vhosts both its string and its list are used. What a
vhost holds does not matter here (`α`), and the sockets of `minuted_serve_listen` are left out.

An empty dictionary in `listen` means all vhosts to `minuted_serve_listen`, but it is also what `listen`
starts an entry from, before it has looked at the names.
-/

namespace MinuteHttp

inductive TclResult where
  | ok
  | error
  | «return»
  | «break»
  | «continue»
  deriving DecidableEq, Repr

/-- A `Tcl_Obj`: its string, and its elements if it is a well-formed list. -/
structure TclObj where
  string : String
  list : Option (List String)
  deriving DecidableEq, Repr

/-- `bind-address port`, the key of a listener. -/
abbrev ListenKey := String × String

structure Configuration (α : Type) where
  vhosts : Dict String α
  listen : Dict ListenKey (Dict String α)

def Configuration.empty (α : Type) : Configuration α := ⟨[], []⟩

variable {α : Type}

/-- `minuted_tcl_vhost` on the words after the command's name. `eval` is what the evaluation of the body
returns, with the dictionary it has filled. -/
def minutedTclVhost (objv : List TclObj) (eval : TclResult × α) (c : Configuration α) :
    TclResult × Configuration α :=
  match objv with
  | [name, _] =>
    if (c.vhosts.get name.string).isSome then (.error, c)
    else if eval.1 = .ok then (.ok, { c with vhosts := c.vhosts.put name.string eval.2 })
    else (eval.1, c)
  | _ => (.error, c)

/-- The loop over the names, which puts them into `vhostdict` up to the first unknown one. -/
def listenNames (vhosts : Dict String α) : List String → Dict String α → TclResult × Dict String α
  | [], d => (.ok, d)
  | n :: names, d =>
    match vhosts.get n with
    | none => (.error, d)
    | some o => listenNames vhosts names (d.put n o)

/-- `ni == 1 && 0 == strcmp("+", Tcl_GetString(vhosts))` -/
def isPlus (vhosts : TclObj) (names : List String) : Bool :=
  decide (names.length = 1) && vhosts.string == "+"

/-- `minuted_tcl_listen` on the words after the command's name. -/
def minutedTclListen (objv : List TclObj) (c : Configuration α) : TclResult × Configuration α :=
  match objv with
  | [addr, port, vhosts] =>
    let key := (addr.string, port.string)
    let vhostdict := (c.listen.get key).getD []                             -- or Tcl_NewDictObj ()
    let entered (d : Dict String α) : Configuration α := { c with listen := c.listen.put key d }
    match vhosts.list with
    | none => (.error, entered vhostdict)
    | some names =>
      if isPlus vhosts names then (.ok, entered vhostdict)
      else
        let r := listenNames c.vhosts names vhostdict
        (r.1, entered r.2)
  | _ => (.error, c)

inductive ConfigCommand (α : Type) where
  | vhost (objv : List TclObj) (eval : TclResult × α)
  | listen (objv : List TclObj)

def ConfigCommand.exec (c : Configuration α) : ConfigCommand α → TclResult × Configuration α
  | vhost objv eval => minutedTclVhost objv eval c
  | listen objv => minutedTclListen objv c

/-- The commands of a script, each one after what the ones before have left. -/
def configStep (c : Configuration α) (cmd : ConfigCommand α) : Feed.Step (Configuration α) Empty :=
  .next (cmd.exec c).2

def configure (c : Configuration α) (cmds : List (ConfigCommand α)) : Configuration α :=
  cmds.foldl (fun c cmd => (cmd.exec c).2) c

/-- `minuted_serve_listen`: the vhosts of each listener (`vhostListen`). -/
def minutedServeListen (c : Configuration α) : Dict ListenKey (Dict String α) :=
  c.listen.map fun p => (p.1, if p.2.length = 0 then c.vhosts else p.2)

end MinuteHttp
