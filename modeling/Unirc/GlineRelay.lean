import Unirc.Decimal
import Unirc.GlineMask
import Unirc.Parse
import Unirc.Runs

/-!
# Relaying G-lines

`mo_gline` and `mo_ungline` of `m_gline.c` with `parse_aline` of `s_conf.c`, on servers that
are joined by links in any shape. A server that does not find the G-line it is sent sets it and
hands it to its neighbours, the sender included. Lines are read and written as they stand on
the wire; what a name stands for at the server that reads it is part of the event.
-/

namespace Unirc

/-- The settings read by the handlers. -/
structure GlineConfig where
  minNonwildcard : ℤ
  glineMinCidr : ℤ
  glineMinCidr6 : ℤ
  glineTime : ℤ

/-- The client that `find_chasing` returns for a nick. -/
structure GlineTarget where
  username : Str
  host : Str
  sockhost : Str
  exemptKline : Bool

/-- `source_p`; `servptr` is the name of its server. -/
structure GlineSource where
  isServices : Bool
  isServer : Bool
  name : Str
  id : Str
  username : Str
  host : Str
  servptr : Str

structure GlineEnv where
  source : GlineSource
  chase : Str → Option GlineTarget
  now : ℤ
  date : Str

structure Aline where
  user : Str
  host : Str
  reason : Str

/-- The notices of `parse_aline` and `mo_gline`. -/
inductive AlineError where
  | tempLineNotSupported
  | needMoreParams
  | noTarget
  | serverNotSupported
  | invalidCharacter
  | fewNonwild
  | invalidComment
  | cidrLength (bits : ℤ)

def orStar (s : Str) : Str := if s = [] then ['*'] else s

/-- `find_user_host` -/
def findUserHost (chase : Str → Option GlineTarget) (arg : Str) : Option (Str × Str) :=
  if '@' ∈ arg then
    some ((orStar (arg.takeWhile (· ≠ '@'))).take (USERLEN * 4),
      (orStar ((arg.dropWhile (· ≠ '@')).drop 1)).take HOSTLEN)
  else if arg.head? = some '*' then some (['*'], arg.take (HOSTLEN * 4))
  else
    match chase arg with
    | none => none
    | some target =>
        if target.exemptKline then none
        else
          some ((if target.username.head? = some '~' then '*' :: target.username.tail
              else target.username).take (USERLEN * 4),
            (if target.sockhost = [] ∨ target.sockhost = ['0'] then target.host
              else target.sockhost).take (HOSTLEN * 4))

def isKWildChar (c : Char) : Bool :=
  c = '!' || c = '#' || c = '*' || c = '.' || c = ':' || c = '?' || c = '@'

/-- `valid_wild_card` -/
def validWildCard (minNonwildcard : ℤ) (user host : Str) : Bool :=
  let nonwild := (user ++ host).countP fun c => !isKWildChar c
  decide (0 < nonwild ∧ minNonwildcard ≤ nonwild)

/-- `valid_comment` on a reason that is not empty. -/
def alineReason : List Str → Except AlineError Str
  | reason :: _ =>
      if reason = [] then .ok "No Reason".toList
      else if '"' ∈ reason then .error .invalidComment
      else .ok (if REASONLEN < reason.length then reason.take (REASONLEN - 1) else reason)
  | [] => .ok "No Reason".toList

/-- `parse_aline` for a G-line, up to the reason: the mask and the parameters behind it. -/
def parseAline (cfg : GlineConfig) (chase : Str → Option GlineTarget) (awild : Bool) :
    List Str → Except AlineError (Str × Str × List Str)
  | [] => .error .needMoreParams
  | arg :: rest =>
      if arg.all Char.isDigit then .error .tempLineNotSupported
      else
        match findUserHost chase arg with
        | none => .error .noTarget
        | some (user, host) =>
            if rest.head?.any fun s => !irccmp s "ON".toList then .error .serverNotSupported
            else if '!' ∈ user then .error .invalidCharacter
            else if awild && !validWildCard cfg.minNonwildcard user host then .error .fewNonwild
            else .ok (user, host, rest)

/-- The mask that `mo_gline` takes from its parameters. -/
def acceptGline (cfg : GlineConfig) (chase : Str → Option GlineTarget) (params : List Str) :
    Except AlineError Aline := do
  let (user, host, rest) ← parseAline cfg chase true params
  let reason ← alineReason rest
  match host.dropWhile (· ≠ '/') with
  | [] => .ok ⟨user, host, reason⟩
  | _ :: digits =>
      let minBitlen := if ':' ∈ host then cfg.glineMinCidr6 else cfg.glineMinCidr
      if Decimal.atoi digits < minBitlen then .error (.cidrLength minBitlen)
      else .ok ⟨user, host, reason⟩

def setLocalGline (cfg : GlineConfig) (env : GlineEnv) (a : Aline) (glines : List Gline) :
    List Gline :=
  ⟨a.user, a.host, a.reason ++ " - Date: ".toList ++ env.date, env.now + cfg.glineTime⟩ :: glines

/-- The G-line that `mo_gline` sets and hands on. -/
def moGline (cfg : GlineConfig) (env : GlineEnv) (glines : List Gline) (params : List Str) :
    Option Aline :=
  if !env.source.isServices && !env.source.isServer then none
  else
    match acceptGline cfg env.chase params with
    | .error _ => none
    | .ok a => if findGline glines a.user a.host then none else some a

/-- `remove_gline_match`: the first G-line that is found. -/
def removeGlineMatch (glines : List Gline) (user host : Str) : List Gline :=
  glines.eraseP (sameGline user host)

/-- The G-line that `mo_ungline` removes. -/
def moUngline (cfg : GlineConfig) (env : GlineEnv) (glines : List Gline) (params : List Str) :
    Option (Str × Str) :=
  if !env.source.isServices && !env.source.isServer then none
  else
    match parseAline cfg env.chase false params with
    | .error _ => none
    | .ok (user, host, _) => if findGline glines user host then some (user, host) else none

def GlineSource.ID (s : GlineSource) : Str := if s.id = [] then s.name else s.id

structure GlineCaps where
  gln : Bool
  ts6 : Bool

/-- A line of words, cut as `send_format` does. -/
def sendFormat (words : List Str) : Str := (List.intercalate [' '] words).take (IRCD_BUFSIZE - 2)

/-- The lines of `mo_gline` to one neighbour, in the order they are sent. -/
def glineLines (me : Str × Str) (source : GlineSource) (isClient : Bool) (caps : GlineCaps)
    (a : Aline) : List Str :=
  let line (origin : Str) (words : List Str) : Str :=
    sendFormat ((':' :: origin) :: "GLINE".toList :: words ++ [':' :: a.reason])
  let mask := a.user ++ '@' :: a.host
  (if caps.gln && caps.ts6 then [line source.ID [a.user, a.host]] else []) ++
  (if caps.gln && !caps.ts6 then [line source.name [a.user, a.host]] else []) ++
  (if !isClient && caps.gln then [line source.name [mask]] else []) ++
  (if !isClient && !caps.gln then
    [line source.servptr [source.name, source.username, source.host, source.servptr, mask]]
    else []) ++
  (if caps.ts6 && !caps.gln then
    [line me.2 [source.ID, source.username, source.host, source.servptr, a.user, a.host]]
    else []) ++
  (if !caps.gln && !caps.ts6 then
    [line me.1 [source.name, source.username, source.host, source.servptr, a.user, a.host]]
    else [])

def unglineLines (source : GlineSource) (isClient : Bool) (caps : GlineCaps) (user host : Str) :
    List Str :=
  if !isClient && caps.gln then
    [sendFormat [':' :: source.name, "UNGLINE".toList, user ++ '@' :: host]]
  else []

/-- A line of `SEND_GLINES`. -/
def glineBurstLine (g : Gline) : Str :=
  sendFormat ["GLINE".toList, g.user ++ '@' :: g.host, ':' :: g.reason]

/-- The parameters of a line that `handle_command` gives to the handler of a command. -/
def commandParams (command : Str) (parameters : ℕ) (line : Str) : Option (List Str) :=
  let (ch, params) := splitLine line
  if irccmp ch command = false ∧ parameters ≤ params.length + 1 then some params else none

variable {σ : Type*} [DecidableEq σ]

/-- The servers and their links. `ident` is the name and the id of a server. -/
structure GlineTopology (σ : Type*) where
  config : σ → GlineConfig
  ident : σ → Str × Str
  link : σ → σ → Option GlineCaps

/-- The G-lines of every server, and the lines under way on every link. -/
structure GlineNet (σ : Type*) where
  glines : σ → List Gline
  wire : σ → σ → List Str

/-- What happens in the network: a server reads the next line of a neighbour or a line of a
client of its own, sends its G-lines to a new neighbour, lets them expire, or clears those of
its table. -/
inductive GlineEvent (σ : Type*) where
  | deliver (a b : σ) (env : GlineEnv)
  | command (n : σ) (env : GlineEnv) (line : Str)
  | sendGlines (a b : σ)
  | cleanupTklines (n : σ) (now : ℤ)
  | clearGlines (n : σ) (table : List (Str × Str))

namespace GlineNet

variable (top : GlineTopology σ)

def send (net : GlineNet σ) (n : σ) (lines : σ → GlineCaps → List Str) : GlineNet σ :=
  { net with
    wire := fun a b =>
      if a = n then net.wire a b ++ ((top.link n b).map (lines b)).getD [] else net.wire a b }

def setGlines (net : GlineNet σ) (n : σ) (glines : List Gline) : GlineNet σ :=
  { net with glines := Function.update net.glines n glines }

/-- The G-line that a server sets for a line. -/
def glineIn (net : GlineNet σ) (n : σ) (env : GlineEnv) (line : Str) : Option Aline :=
  (commandParams "GLINE".toList 3 line).bind (moGline (top.config n) env (net.glines n))

def unglineIn (net : GlineNet σ) (n : σ) (env : GlineEnv) (line : Str) : Option (Str × Str) :=
  (commandParams "UNGLINE".toList 2 line).bind (moUngline (top.config n) env (net.glines n))

/-- A server reads a line; `client` is the neighbour it comes from. -/
def receive (net : GlineNet σ) (n : σ) (client : Option σ) (env : GlineEnv) (line : Str) :
    GlineNet σ :=
  match net.glineIn top n env line with
  | some a =>
      (net.setGlines n (setLocalGline (top.config n) env a (net.glines n))).send top n
        fun b caps => glineLines (top.ident n) env.source (client == some b) caps a
  | none =>
      match net.unglineIn top n env line with
      | some (user, host) =>
          (net.setGlines n (removeGlineMatch (net.glines n) user host)).send top n
            fun b caps => unglineLines env.source (client == some b) caps user host
      | none => net

/-- The line that a server reads at an event. -/
def incoming (net : GlineNet σ) : GlineEvent σ → Option (σ × Option σ × GlineEnv × Str)
  | .deliver a b env => (net.wire a b).head?.map fun line => (b, some a, env, line)
  | .command n env line => some (n, none, env, line)
  | _ => none

def pop (net : GlineNet σ) (a b : σ) : GlineNet σ :=
  { net with
    wire := Function.update net.wire a (Function.update (net.wire a) b (net.wire a b).tail) }

def step (net : GlineNet σ) (e : GlineEvent σ) : GlineNet σ :=
  match e with
  | .deliver a b env =>
      match net.wire a b with
      | [] => net
      | line :: _ => (net.pop a b).receive top b (some a) env line
  | .command n env line => net.receive top n none env line
  | .sendGlines a b =>
      net.send top a fun b' _ => if b' = b then (net.glines a).map glineBurstLine else []
  | .cleanupTklines n now => net.setGlines n ((net.glines n).filter fun g => now < g.hold)
  | .clearGlines n table =>
      net.setGlines n (table.foldl (fun l m => removeGlineMatch l m.1 m.2) (net.glines n))

/-- The server that sets a G-line at an event, and the G-line. -/
def placed (net : GlineNet σ) (e : GlineEvent σ) : Option (σ × Aline) :=
  (net.incoming e).bind fun (n, _, env, line) => (net.glineIn top n env line).map (n, ·)

/-- The server sets the G-line and forwards it. -/
def Sets (n : σ) (user host : Str) (net : GlineNet σ) (e : GlineEvent σ) : Prop :=
  (net.placed top e).any fun (m, a) => m = n && a.user = user && a.host = host

instance (n : σ) (user host : Str) (net : GlineNet σ) (e : GlineEvent σ) :
    Decidable (Sets top n user host net e) := by unfold Sets; infer_instance

/-- The G-line is on the list of the server. -/
def Holds (n : σ) (user host : Str) (net : GlineNet σ) : Prop :=
  ∃ g ∈ net.glines n, g.user = user ∧ g.host = host

instance (n : σ) (user host : Str) (net : GlineNet σ) : Decidable (Holds n user host net) := by
  unfold Holds; infer_instance

/-- The G-line expires at the server or is removed from it. -/
def Loses (n : σ) (user host : Str) (net : GlineNet σ) (e : GlineEvent σ) : Prop :=
  net.Holds n user host ∧ ¬ (net.step top e).Holds n user host

instance (n : σ) (user host : Str) (net : GlineNet σ) (e : GlineEvent σ) :
    Decidable (Loses top n user host net e) := by unfold Loses; infer_instance

variable {top} {net : GlineNet σ} {e : GlineEvent σ} {n : σ} {user host : Str}

@[simp] theorem glines_send (lines : σ → GlineCaps → List Str) :
    (net.send top n lines).glines = net.glines := rfl

@[simp] theorem glines_setGlines (glines : List Gline) :
    (net.setGlines n glines).glines n = glines := Function.update_self _ _ _

@[simp] theorem glines_pop (a b : σ) : (net.pop a b).glines = net.glines := rfl

theorem glineIn_pop (a b : σ) (env : GlineEnv) (line : Str) :
    (net.pop a b).glineIn top n env line = net.glineIn top n env line := rfl

omit [DecidableEq σ] in
/-- A G-line is set only where it is not found. -/
theorem findGline_of_glineIn {env : GlineEnv} {line : Str} {a : Aline}
    (h : net.glineIn top n env line = some a) :
    findGline (net.glines n) a.user a.host = false := by
  obtain ⟨params, -, hmo⟩ := Option.bind_eq_some_iff.mp h
  unfold moGline at hmo
  split at hmo
  · cases hmo
  · split at hmo
    · cases hmo
    · split at hmo
      · cases hmo
      · rename_i hfind
        cases hmo
        simpa using hfind

theorem glines_receive {client : Option σ} {env : GlineEnv} {line : Str} {a : Aline}
    (h : net.glineIn top n env line = some a) :
    (net.receive top n client env line).glines n =
      setLocalGline (top.config n) env a (net.glines n) := by
  unfold receive
  rw [h]
  simp

/-- The server that sets a G-line puts it on its list. -/
theorem step_of_placed {a : Aline} (h : net.placed top e = some (n, a)) :
    findGline (net.glines n) a.user a.host = false ∧
      ∃ env, (net.step top e).glines n =
        setLocalGline (top.config n) env a (net.glines n) := by
  obtain ⟨⟨n', client, env, line⟩, hin, hmap⟩ := Option.bind_eq_some_iff.mp h
  obtain ⟨a', hgline, heq⟩ := Option.map_eq_some_iff.mp hmap
  cases heq
  refine ⟨findGline_of_glineIn hgline, env, ?_⟩
  cases e with
  | deliver x b env' =>
      obtain ⟨line', hhead, heq⟩ := Option.map_eq_some_iff.mp hin
      cases heq
      unfold step
      cases hw : net.wire x n with
      | nil => rw [hw] at hhead; cases hhead
      | cons first rest =>
          rw [hw] at hhead
          cases hhead
          simp only [hw]
          exact glines_receive ((glineIn_pop x n env line).trans hgline)
  | command m env' line' =>
      cases hin
      exact glines_receive hgline
  | sendGlines x b => cases hin
  | cleanupTklines m now => cases hin
  | clearGlines m table => cases hin

theorem exists_placed_of_sets (h : Sets top n user host net e) :
    ∃ reason, net.placed top e = some (n, ⟨user, host, reason⟩) := by
  obtain ⟨⟨m, a⟩, hplaced, heq⟩ := (Option.any_eq_true _ _).mp h
  simp only [Bool.and_eq_true, decide_eq_true_eq] at heq
  obtain ⟨⟨rfl, rfl⟩, rfl⟩ := heq
  exact ⟨a.reason, hplaced⟩

theorem not_holds_of_sets (hclear : (parseNetmask host).ClearBelow)
    (h : Sets top n user host net e) : ¬ net.Holds n user host := by
  rintro ⟨g, hg, rfl, rfl⟩
  obtain ⟨reason, hplaced⟩ := exists_placed_of_sets h
  have hfind := (step_of_placed hplaced).1
  rw [findGline, List.any_eq_false] at hfind
  exact hfind g hg ((sameGline_self g).mpr hclear)

theorem holds_of_sets (h : Sets top n user host net e) : (net.step top e).Holds n user host := by
  obtain ⟨reason, hplaced⟩ := exists_placed_of_sets h
  obtain ⟨-, env, hglines⟩ := step_of_placed hplaced
  refine ⟨⟨user, host, reason ++ " - Date: ".toList ++ env.date,
    env.now + (top.config n).glineTime⟩, ?_, rfl, rfl⟩
  rw [hglines]
  exact List.mem_cons_self

end GlineNet

/-- `_find_gline` finds what `set_local_gline` has set. -/
def FoundWhenSet (user host : Str) : Prop :=
  ∀ cfg env reason glines,
    findGline (setLocalGline cfg env ⟨user, host, reason⟩ glines) user host = true

/-- In every run of every network a server sets and forwards the G-line at most once, and once
more for each time that it expires or is removed there. -/
def SetOnce (user host : Str) : Prop :=
  ∀ (σ : Type) [DecidableEq σ] (top : GlineTopology σ) (n : σ) (net : GlineNet σ)
    (es : List (GlineEvent σ)),
    Runs.count (GlineNet.step top) (GlineNet.Sets top n user host) net es ≤
      Runs.count (GlineNet.step top) (GlineNet.Loses top n user host) net es + 1

def loopMask : Str := "2001:db8:1:ffff::/49".toList

def loopEnv : GlineEnv :=
  ⟨⟨true, false, "OperServ".toList, [], [], [], []⟩, fun _ => none, 0, []⟩

def loopLine : Str := ":OperServ GLINE *@2001:db8:1:ffff::/49 :spam".toList

def loneServer : GlineTopology Unit :=
  ⟨fun _ => ⟨4, 16, 48, 43200⟩, fun _ => ([], []), fun _ _ => none⟩

theorem not_glines_set_once :
    ¬ ∀ cfg chase params a, acceptGline cfg chase params = .ok a →
      FoundWhenSet a.user a.host ∧ SetOnce a.user a.host := by
  intro h
  have hload : acceptGline ⟨4, 16, 48, 43200⟩ (fun _ => none)
    ["*@2001:db8:1:ffff::/49".toList, "spam".toList] = .ok ⟨['*'], loopMask, "spam".toList⟩ := by rfl
  have hsets := (h _ _ _ _ hload).2 Unit loneServer () ⟨fun _ => [], fun _ _ => []⟩
    [.command () loopEnv loopLine, .command () loopEnv loopLine]
  revert hsets
  decide +kernel

theorem glines_set_once (user host : Str) :
    FoundWhenSet user host ∧ SetOnce user host ↔ (parseNetmask host).ClearBelow := by
  constructor
  · rintro ⟨hfound, -⟩
    have := hfound ⟨0, 0, 0, 0⟩ ⟨⟨true, true, [], [], [], [], []⟩, fun _ => none, 0, []⟩ [] []
    exact (findGline_cons_self ⟨user, host, _, _⟩ [] rfl).mp this
  · intro hclear
    refine ⟨fun cfg env reason glines => ?_, fun σ _ top n net es => ?_⟩
    · have hsame := (sameGline_self ⟨user, host, reason ++ " - Date: ".toList ++ env.date,
        env.now + cfg.glineTime⟩).mpr hclear
      exact List.any_eq_true.mpr ⟨_, List.mem_cons_self, hsame⟩
    · refine (Runs.count_le (P := GlineNet.Holds n user host) ?_ ?_ ?_ net es).1
      · exact fun net e h => GlineNet.not_holds_of_sets hclear h
      · exact fun net e h => GlineNet.holds_of_sets h
      · intro net e hon hkeep
        by_contra hoff
        exact hkeep ⟨hon, hoff⟩

end Unirc
