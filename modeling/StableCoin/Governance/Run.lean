import Mathlib.Data.Int.ConditionallyCompleteOrder
import StableCoin.Flight
import StableCoin.History
import StableCoin.Governance.Effect
import StableCoin.Governance.JsonText

/-!
# Runs of the governance contract

Only `acceptScore` hands control away, to the code it deploys; once that
has run it records the acceptance. Everything else the contract keeps - its
`Record` - is therefore the same before and after, and the accepted calls
of a run, nested as they may be, form one sequential history of it.
`History.calls` is the induction every later result goes through.
-/

namespace Governance

open Python Reentrancy
open StableCoin (Address ArrayDB Bytes DictDB)

variable {V : Type}

/-! ## Methods that never ask -/

section

open Program (Silent)

-- the search meets one instance for each statement of a method
set_option synthInstance.maxSize 1024

variable {host : Host V} {now : Int}

instance {α : Type} (x : Except Abort α) : Silent (liftM x : Exec V α) :=
  inferInstanceAs (Silent (Program.ofExcept x))

instance {α : Type} (x : Except Exception α) : Silent (liftM x : Exec V α) :=
  inferInstanceAs (Silent (Program.ofExcept (x.mapError Abort.raised)))

instance : Silent (Program.read : Exec V (World V)) := ⟨fun _ _ _ _ h => by cases h⟩

instance (e : Event) : Silent (emit e : Exec V Unit) :=
  inferInstanceAs (Silent (Program.modify _))

instance (f : V → Except Abort V) : Silent (system f) :=
  inferInstanceAs (Silent (Program.read >>= _))

theorem silent_malicious_score (address type : Json) :
    Silent (_malicious_score host address type) := by
  refine .bind _ fun a => .bind _ fun t => ?_
  cases MaliciousScoreType.ofInt t with
  | none => exact inferInstanceAs (Silent (pure ()))
  | some k =>
      cases k with
      | FREEZE =>
          unfold _addToScoreBlackList
          infer_instance
      | UNFREEZE =>
          unfold _removeFromScoreBlackList
          infer_instance

theorem silent_approve_network_proposal (type : Int) (value : Json) :
    Silent (_approve_network_proposal host type value) := by
  unfold _approve_network_proposal
  cases NetworkProposalType.ofInt type with
  | none => exact inferInstanceAs (Silent (pure ()))
  | some t =>
      cases t with
      | TEXT => exact inferInstanceAs (Silent (pure ()))
      | MALICIOUS_SCORE =>
          exact .bind _ fun _ => .bind _ fun _ => .bind _ fun _ => silent_malicious_score _ _
      | _ =>
          simp only [_set_revision, _disqualify_prep, _set_step_price, _set_irep,
            _set_step_costs, _set_reward_fund, _set_reward_fund_allocation]
          infer_instance

/-- Only `acceptScore` hands control away. -/
theorem silent_body {k : Call} (hm : ∀ txHash, k.method ≠ .acceptScore txHash) :
    Silent (body host now k) := by
  obtain ⟨ctx, m⟩ := k
  cases m with
  | acceptScore txHash => exact absurd rfl (hm txHash)
  | rejectScore txHash reason =>
      simp only [body, rejectScore]
      infer_instance
  | addAuditor address =>
      simp only [body, addAuditor]
      infer_instance
  | removeAuditor address =>
      refine .bind _ fun _ => .bind _ fun w => .bind _ fun _ => .bind _ fun _ =>
        .bind _ fun w => ?_
      cases w.auditor_list.pop with
      | none => exact inferInstanceAs (Silent (pure ()))
      | some popped => exact inferInstanceAs (Silent (Program.modify _))
  | registerProposal title description type value =>
      simp only [body, registerProposal]
      infer_instance
  | cancelProposal id =>
      simp only [body, cancelProposal]
      infer_instance
  | voteProposal id vote =>
      refine .bind _ fun _ => .bind _ fun w => .bind _ fun result => .bind _ fun _ =>
        .bind _ fun _ => ?_
      split
      · exact .bind _ fun _ => silent_approve_network_proposal _ _
      · exact inferInstanceAs (Silent (pure ()))

end

/-! ## After the deployment -/

/-- What `acceptScore` does when the deployed code has run. -/
def accepted (ctx : Context) (txHash : Bytes) (w : World V) : World V :=
  { w with
    audit_status := w.audit_status.set txHash ctx.txHash
    events := w.events ++ [.Accepted ("0x" ++ bytesHex txHash)] }

theorem body_call {host : Host V} {now : Int} {k : Call} {w w' : World V} {r : Deploy}
    {g : World V → Outcome Abort Deploy (World V) Unit} (h : body host now k w = .call r w' g) :
    ∃ txHash, k.method = .acceptScore txHash ∧ Undecided k.ctx w txHash ∧ w' = w
      ∧ g = fun v => .done () (accepted k.ctx txHash v) := by
  obtain ⟨ctx, m⟩ := k
  by_cases hm : ∃ txHash, m = .acceptScore txHash
  · obtain ⟨txHash, rfl⟩ := hm
    -- the call is accepted so far, so every check has passed
    obtain ⟨haud, addr, haddr, hnext, ha, hr, rfl⟩ : _ ∧ _ := by
      simpa [body, acceptScore, _deploy] using Outcome.first_of_call h
    simp [body, acceptScore, _deploy, emit, found, require, haud, haddr, hnext, ha, hr] at h
    obtain ⟨-, hg⟩ := h
    exact ⟨txHash, rfl, ⟨haud, by simp [haddr], ha, hr⟩, rfl, hg.symm⟩
  · push Not at hm
    exact ((silent_body hm).ne_call _ _ _ _ h).elim

theorem resumption_eq {host : Host V} {g : Exec V Unit} (h : Resumption (body host) g) :
    ∃ ctx txHash, g = fun w => .done () (accepted ctx txHash w) := by
  induction h with
  | entry h =>
      obtain ⟨_, -, -, -, rfl⟩ := body_call h
      exact ⟨_, _, rfl⟩
  | again _ h ih =>
      obtain ⟨_, _, rfl⟩ := ih
      cases h

/-- A call that does not fail is a step. -/
theorem step_of_first {host : Host V} {c : Config Abort Deploy Int Call (World V)} {k : Call}
    {w : World V} (hm : ∀ txHash, k.method ≠ .acceptScore txHash)
    (h : (body host c.now k c.cur.state).first = some w) :
    Step (body host) c ⟨c.now, c.cur.push c.now k w, c.stack⟩ := by
  rcases Outcome.first_eq_some h with ⟨_, ho⟩ | ⟨r, g, ho⟩
  · exact .run ho
  · exact ((silent_body hm).ne_call _ _ _ _ ho).elim

/-- What the contract keeps of its own accord: all but the acceptances, and
the event logs. -/
structure Record (V : Type) where
  auditor_list : ArrayDB Address
  reject_status : DictDB Bytes Bytes
  network_proposal : NetworkProposal
  network : V

def World.record (w : World V) : Record V :=
  ⟨w.auditor_list, w.reject_status, w.network_proposal, w.network⟩

theorem body_quiet (host : Host V) : Quiet (body host) World.record := by
  intro g hg w
  obtain ⟨_, _, rfl⟩ := resumption_eq hg
  exact ⟨_, rfl, rfl⟩

/-! ## Runs -/

/-- The contract and the calls in flight around it. -/
abbrev Network (V : Type) := Config Abort Deploy Int Call (World V)

/-- An accepted call as the trace of a run records it. -/
abbrev Receipt (V : Type) := Entry Int Call (World V)

/-- The world of a contract that was just installed, on a network where
nothing is black-listed. -/
def Installed (host : Host V) (w : World V) : Prop :=
  ∃ v : V, host.get_icon_network_value v .SCORE_BLACK_LIST = []
    ∧ on_install host ⟨none, [], fun _ => none, fun _ => none, .empty, v, []⟩ = .done () w

theorem Installed.record_eq {host : Host V} {w : World V} (h : Installed host w) :
    ∃ v, readCosts host (costs_v1.map fun (k, c) => (k, .str c))
        = .ok (host.get_icon_network_value v .STEP_COSTS)
      ∧ host.get_icon_network_value v .SCORE_BLACK_LIST = []
      ∧ w = ⟨some VERSION, [host.owner], fun _ => none, fun _ => none, .empty, v, []⟩ := by
  obtain ⟨v₀, hblack, h⟩ := h
  have hfirst := Outcome.first_of_done h
  simp [on_install, system, ArrayDB.add] at hfirst
  obtain ⟨costs, hcosts, v, hset, rfl⟩ := hfirst
  refine ⟨v, ?_, ?_, rfl⟩
  · rw [host.get_set_self hset]
    simpa using hcosts
  · rw [host.get_set_of_ne hset (by decide), hblack]

/-- A configuration that some run reaches. -/
def Reachable (host : Host V) (c : Network V) : Prop :=
  ∃ now w, Installed host w ∧ Steps (body host) ⟨now, ⟨w, []⟩, []⟩ c

/-- `tr` is a sequential history of accepted calls from the record `r₀`. -/
abbrev History (host : Host V) (r₀ : Record V) (tr : List (Receipt V)) (r : Record V) : Prop :=
  Linked (body host) World.record r₀ tr r

namespace History

variable {host : Host V} {r₀ r : Record V} {tr : List (Receipt V)}

/-- **The induction over histories**, with each call read off its receipt. -/
theorem calls {motive : List (Receipt V) → Record V → Prop} (nil : motive [] r₀)
    (next : ∀ {tr : List (Receipt V)} {e : Receipt V}, motive tr e.before.record →
      Effect host e.now e.call.ctx e.before e.call.method e.after →
      (∀ d ∈ tr, d.now ≤ e.now) → motive (tr ++ [e]) e.after.record)
    (h : History host r₀ tr r) : motive tr r := by
  induction h with
  | nil => exact nil
  | @snoc tr t e h ht he hn ih =>
      subst ht
      exact next ih (.of_first he) hn

/-- What every accepted call keeps holds all along a history. -/
theorem invariant {P : Record V → Prop}
    (hP : ∀ {now ctx m w w'}, P w.record → Effect host now ctx w m w' → P w'.record)
    (h : History host r₀ tr r) (h₀ : P r₀) : P r := by
  exact h.calls (motive := fun _ r => P r) h₀ fun ih he _ => hP ih he

/-- Each call has an effect, from where the calls before it led. -/
theorem effect {pre post : List (Receipt V)} {e : Receipt V}
    (h : History host r₀ (pre ++ e :: post) r) :
    History host r₀ pre e.before.record
      ∧ Effect host e.now e.call.ctx e.before e.call.method e.after := by
  rw [← List.singleton_append, ← List.append_assoc] at h
  obtain ⟨_, hpre, -⟩ := Linked.split h
  obtain ⟨hpre, -, he, -⟩ := hpre.of_snoc
  exact ⟨hpre, .of_first he⟩

end History

namespace Reachable

variable {host : Host V} {c c' : Network V}

theorem steps (h : Reachable host c) (hs : Steps (body host) c c') : Reachable host c' := by
  obtain ⟨now, w, hw, h⟩ := h
  exact ⟨now, w, hw, h.trans hs⟩

theorem history (h : Reachable host c) : ∃ w, Installed host w
    ∧ History host w.record c.cur.trace c.cur.state.record
    ∧ ∀ e ∈ c.cur.trace, e.now ≤ c.now := by
  obtain ⟨now, w, hw, hs⟩ := h
  obtain ⟨hl, hn⟩ := linked_of_steps (body_quiet host) hs
  exact ⟨w, hw, hl, hn⟩

/-- What a further run adds to the trace is a history of its own. -/
theorem segment (h : Reachable host c) (hs : Steps (body host) c c') {seg : List (Receipt V)}
    (hseg : c'.cur.trace = c.cur.trace ++ seg) :
    History host c.cur.state.record seg c'.cur.state.record := by
  obtain ⟨now, w, hw, h⟩ := h
  exact linked_segment (body_quiet host) h hs hseg

theorem segment_notBefore (h : Reachable host c) (hs : Steps (body host) c c')
    {seg : List (Receipt V)} (hseg : c'.cur.trace = c.cur.trace ++ seg) :
    ∀ e ∈ seg, c.now ≤ e.now := by
  obtain ⟨now, w, hw, h⟩ := h
  exact Reentrancy.segment_notBefore h hs hseg

/-- A call in flight only records its acceptance when it goes on. -/
theorem resume_eq (h : Reachable host c) {f : Frame Abort Deploy Int Call (World V)}
    (hf : f ∈ c.stack) {g : Exec V Unit} (hg : f.resume = some g) :
    ∃ ctx txHash, g = fun w => .done () (accepted ctx txHash w) := by
  obtain ⟨now, w, -, hs⟩ := h
  exact resumption_eq (hs.resumption f hf g hg)

theorem invariant (h : Reachable host c) {P : Record V → Prop}
    (h₀ : ∀ {w}, Installed host w → P w.record)
    (hP : ∀ {now ctx m w w'}, P w.record → Effect host now ctx w m w' → P w'.record) :
    P c.cur.state.record := by
  obtain ⟨w, hw, hist, -⟩ := h.history
  exact hist.invariant hP (h₀ hw)

end Reachable

/-! ## Scripts in a run -/

/-- The configuration after foreign code has run the script `sc` in `c`; if
the script aborts, nothing has happened. -/
def Network.run (host : Host V) (c : Network V) (sc : Script Call) : Network V :=
  { c with cur := (exec (body host) c.now sc c.cur).getD c.cur }

theorem Network.run_steps (host : Host V) (c : Network V) (sc : Script Call) :
    Steps (body host) c (c.run host sc) := by
  cases hx : exec (body host) c.now sc c.cur with
  | none =>
      have hsame : c.run host sc = c := by simp [Network.run, hx]
      rw [hsame]
  | some w => simpa [Network.run, hx] using exec_steps sc hx c.stack

theorem Reachable.run {host : Host V} {c : Network V} (h : Reachable host c)
    (sc : Script Call) : Reachable host (c.run host sc) :=
  h.steps (c.run_steps host sc)

/-- A script only adds to the trace. -/
theorem Network.run_trace (host : Host V) (c : Network V) (sc : Script Call) :
    (c.run host sc).cur.trace
      = c.cur.trace ++ (c.run host sc).cur.trace.drop c.cur.trace.length := by
  cases hx : exec (body host) c.now sc c.cur with
  | none => simp [Network.run, hx]
  | some w =>
      obtain ⟨seg, htr, -⟩ := exec_trace sc hx
      simp [Network.run, hx, htr]

/-- The calls `ks` one after the other, with nothing to deploy. -/
def calls (ks : List Call) : Script Call :=
  ks.foldr (fun k next => .call k .ret next) .ret

/-! ## A sample run -/

namespace Sample

def readAddress : List Char → Except Exception Address
  | 'h' :: 'x' :: cs => .ok ⟨false, BitVec.ofNat 160 (readHex cs)⟩
  | 'c' :: 'x' :: cs => .ok ⟨true, BitVec.ofNat 160 (readHex cs)⟩
  | _ => .error .valueError

theorem readAddress_str (a : Address) : readAddress (str a).toList = .ok a := by
  obtain ⟨contract, body⟩ := a
  have hread : readHex (hexDigits 40 body.toNat) = body.toNat := by
    rw [readHex_hexDigits]
    exact Nat.mod_eq_of_lt (by simpa using body.isLt)
  cases contract <;> simp [str, readAddress, hread]

/-- Numbers in hexadecimal are all the sample uses. -/
def readInt : List Char → Option Int
  | '-' :: '0' :: 'x' :: cs => some (-(readHex cs : Int))
  | '0' :: 'x' :: cs => some (readHex cs)
  | _ => none

/-- What the network keeps, for the sample: just the values. -/
structure Values where
  STEP_PRICE : Int
  STEP_COSTS : List (String × Int)
  REVISION_CODE : Int
  REVISION_NAME : String
  SCORE_BLACK_LIST : List Address
  IREP : Option Int

namespace Values

def get (v : Values) : (type : IconNetworkValueType) → type.Value
  | .STEP_PRICE => v.STEP_PRICE
  | .STEP_COSTS => v.STEP_COSTS
  | .REVISION_CODE => v.REVISION_CODE
  | .REVISION_NAME => v.REVISION_NAME
  | .SCORE_BLACK_LIST => v.SCORE_BLACK_LIST
  | .IREP => v.IREP

def set (v : Values) : (type : IconNetworkValueType) → type.Value → Values
  | .STEP_PRICE, value => { v with STEP_PRICE := value }
  | .STEP_COSTS, value => { v with STEP_COSTS := value }
  | .REVISION_CODE, value => { v with REVISION_CODE := value }
  | .REVISION_NAME, value => { v with REVISION_NAME := value }
  | .SCORE_BLACK_LIST, value => { v with SCORE_BLACK_LIST := value }
  | .IREP, value => { v with IREP := value }

theorem get_set_self (v : Values) (type : IconNetworkValueType) (value : type.Value) :
    (v.set type value).get type = value := by
  cases type <;> rfl

theorem get_set_of_ne (v : Values) {type type' : IconNetworkValueType} (value : type.Value)
    (h : type' ≠ type) : (v.set type value).get type' = v.get type' := by
  cases type <;> cases type' <;> first | rfl | exact absurd rfl h

end Values

/-- A host whose system functions never refuse. -/
def host : Host Values where
  owner := ⟨false, 1⟩
  address := ⟨true, 1⟩
  int0 s := readInt (Json.chars s)
  fromString
    | .str s => readAddress (Json.chars s)
    | _ => .error .typeError
  jsonLoads := Json.loads
  jsonDumps := Json.dumps
  repr _ := ""
  get_icon_network_value := Values.get
  set_icon_network_value type value v := .ok (v.set type value)
  apply_revision_change _ v := .ok v
  disqualify_prep _ v := .ok (v, true, "")
  set_reward_fund _ v := .ok v
  set_reward_fund_allocation _ v := .ok v
  fromString_str a := by simp [Json.chars_eq, readAddress_str]
  jsonLoads_valid := Json.loads_valid
  jsonLoads_jsonDumps := Json.loads_dumps
  jsonDumps_ne := Json.dumps_ne
  get_set_self h := Except.ok.inj h ▸ Values.get_set_self ..
  get_set_of_ne h hne := Except.ok.inj h ▸ Values.get_set_of_ne _ _ hne
  get_apply_revision_change h _ := by rw [Except.ok.inj h]
  get_disqualify_prep h := by cases h; rfl
  get_set_reward_fund h := by rw [Except.ok.inj h]
  get_set_reward_fund_allocation h := by rw [Except.ok.inj h]

def price : Bytes := Json.dumps (.dict [("value", .str "0x6e")])

/-- A price with a key too many. -/
def noted : Bytes := Json.dumps (.dict [("value", .str "0x6e"), ("note", .str "")])

def alice : Address := ⟨false, 10⟩
def bob : Address := ⟨false, 11⟩
def carol : Address := ⟨false, 12⟩

/-- Three main P-Reps; a call in the transaction `hash`. -/
def ctx (sender : Address) (hash : UInt8) : Context where
  sender := sender
  txHash := [hash]
  timestamp := 1000
  mainPReps := {
    preps := [⟨alice, "alice", 50⟩, ⟨bob, "bob", 30⟩, ⟨carol, "carol", 20⟩]
    expireBlockHeight := 200
    nodup := by decide }
  subPReps := []
  deployTxParams txHash := if txHash = [7] then some ⟨true, 5⟩ else none
  deployInfo _ := ⟨none, some [7]⟩
  scoreOwner _ := ⟨false, 2⟩
  validateIRep _ := .ok ()
  validateRewardFund _ := .ok ()
  txHash_ne := by simp

def values : Values := ⟨100, [], 1, "1.0.0", [], none⟩

/-- The contract installed at height 100. -/
def installed (host : Host Values) : World Values :=
  ((on_install host ⟨none, [], fun _ => none, fun _ => none, .empty, values, []⟩).first).getD
    ⟨none, [], fun _ => none, fun _ => none, .empty, values, []⟩

theorem installed_host : Installed host (installed host) := ⟨values, rfl, rfl⟩

def start : Network Values := ⟨100, ⟨installed host, []⟩, []⟩

theorem start_reachable : Reachable host start :=
  ⟨100, installed host, installed_host, .refl⟩

/-- Alice proposes a price and votes for it. -/
def pending : Network Values :=
  start.run host (calls [⟨ctx alice 1, .registerProposal "price" "" 4 price⟩,
    ⟨ctx alice 2, .voteProposal [1] 1⟩])

theorem pending_reachable : Reachable host pending := start_reachable.run _

/-- Bob votes for it, too. -/
def approved : Network Values :=
  pending.run host (calls [⟨ctx bob 3, .voteProposal [1] 1⟩])

theorem approved_reachable : Reachable host approved := pending_reachable.run _

/-- Alice proposes a price with a note, and everybody votes for it. -/
def annotated : Network Values :=
  start.run host (calls [⟨ctx alice 1, .registerProposal "price" "" 4 noted⟩])

theorem annotated_reachable : Reachable host annotated := start_reachable.run _

def unanimous : Script Call :=
  calls [⟨ctx alice 2, .voteProposal [1] 1⟩, ⟨ctx bob 3, .voteProposal [1] 1⟩,
    ⟨ctx carol 4, .voteProposal [1] 1⟩]

/-- Carol votes against it, too late. -/
def closing : Script Call := calls [⟨ctx carol 4, .voteProposal [1] 0⟩]

theorem approved_trace_ne : approved.cur.trace ≠ [] :=
  List.ne_nil_of_length_pos (by decide +kernel)

/-- Alice's registration. -/
def registration : Receipt Values := approved.cur.trace.head approved_trace_ne

theorem approved_trace :
    approved.cur.trace = [] ++ registration :: approved.cur.trace.tail :=
  (List.cons_head_tail approved_trace_ne).symm

end Sample

end Governance
