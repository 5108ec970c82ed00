import StableCoin.Effect

/-!
# Around the external call

Only `transfer` hands control away, with every check and write behind it:
what is left of it when `tokenFallback` returns is one event. The contract
is therefore quiet on its storage (`body_quiet`), and what it does to the
storage depends on nothing else (`body_replayable`), which is all that
the linear histories of `Reentrancy` ask for.
-/

namespace StableCoin

open Reentrancy

/-! ## Methods that never call -/

section

open Program (Silent)

-- the search meets one instance for each statement of a method
set_option synthInstance.maxSize 1024

instance : Silent load := ⟨fun _ _ _ _ h => by cases h⟩

instance (f : Storage → Storage) : Silent (store f) :=
  inferInstanceAs (Silent (Program.modify _))

instance (e : Event) : Silent (emit e) := inferInstanceAs (Silent (Program.modify _))

instance (p : Int) : Silent (setFeeSharingProportion p) :=
  inferInstanceAs (Silent (Program.modify _))

instance (c : Prop) [Decidable c] (msg : String) : Silent (require c msg) := by
  unfold require
  infer_instance

instance {α : Type} (o : Option α) : Silent (deref o) := by
  cases o with
  | none => exact inferInstanceAs (Silent (Program.fail _))
  | some a => exact inferInstanceAs (Silent (pure a))

instance (ctx : Context) (msg : String) : Silent (onlyAdmin ctx msg) := by
  unfold onlyAdmin
  infer_instance

instance (ctx : Context) : Silent (setFeeSharingPercentage ctx) := by
  simp only [setFeeSharingPercentage, setFeeField]
  infer_instance

instance (a : Address) (v : Int) : Silent (setBalance a v) := by
  unfold setBalance
  infer_instance

instance (a : Address) (v : Int) : Silent (setAllowance a v) := by
  unfold setAllowance
  infer_instance

instance (ctx : Context) (dst : Address) (data : Bytes) :
    Silent (_whitelistWallet ctx dst data) := by
  unfold _whitelistWallet setFeeField
  infer_instance

instance (ctx : Context) (dst : Address) (value : Int) :
    Silent (_mint ctx dst value) := by
  refine .bind _ fun _ => .bind _ fun _ => .bind _ fun _ => .bind _ fun _ => ?_
  infer_instance

instance (ctx : Context) (issuer : Address) : Silent (removeIssuer ctx issuer) := by
  refine .bind _ fun _ => .bind _ fun _ => .bind _ fun _ => .bind _ fun s => ?_
  cases s.issuers.pop with
  | none => exact inferInstanceAs (Silent (Program.fail _ >>= _))
  | some popped =>
      simp only [setAllowance]
      infer_instance

/-- Only `transfer` hands control away. -/
theorem silent_external {ctx : Context} {m : Method}
    (hm : ∀ dst value data, m ≠ .transfer dst value data) :
    (external ctx m).Silent := by
  cases m with
  | transfer dst value data => exact absurd rfl (hm dst value data)
  | changeFreeDailyTxLimit newLimit =>
      unfold external changeFreeDailyTxLimit
      infer_instance
  | addIssuer issuer =>
      unfold external addIssuer
      infer_instance
  | removeIssuer issuer =>
      unfold external
      infer_instance
  | approve issuer value =>
      unfold external approve
      infer_instance
  | transferAdminRight newAdmin =>
      unfold external transferAdminRight
      infer_instance
  | togglePause =>
      unfold external togglePause isPaused
      infer_instance
  | mint value =>
      unfold external mint
      infer_instance
  | mintTo dst value =>
      unfold external mintTo
      infer_instance
  | burn value =>
      unfold external burn _burn
      infer_instance
  | update name symbol decimals admin nIssuers =>
      unfold external constructor
      infer_instance

/-- What `_transfer` asks for, and what it does afterwards. -/
theorem _transfer_call {src dst : Address} {value : Int} {data : Option Bytes}
    {w w' : World} {r : Fallback} {g : World → Outcome Abort Fallback World Unit}
    (h : _transfer src dst value data w = .call r w' g) :
    dst.isContract = true ∧ r = ⟨dst, src, value, data.getD (getBytes "None")⟩
      ∧ g = fun v => .done () { v with
        events := v.events ++ [.Transfer src dst value (data.getD (getBytes "None"))] } := by
  -- the call is accepted so far, so every check has passed
  obtain ⟨⟨hv, hb, hd, hp⟩, -⟩ := _transfer_first.mp (Outcome.first_of_call h)
  by_cases hc : dst.isContract
  · simp [_transfer, setBalance, require, hv, hb, hd, hp, hc] at h
    exact ⟨hc, h.1.symm, h.2.2.symm⟩
  · simp [_transfer, setBalance, require, hv, hb, hd, hp, hc] at h

/-- A transfer that ends at once went to no contract. -/
theorem _transfer_done {src dst : Address} {value : Int} {data : Option Bytes}
    {w w' : World} (h : _transfer src dst value data w = .done () w') :
    dst.isContract = false := by
  obtain ⟨⟨hv, hb, hd, hp⟩, -⟩ := _transfer_first.mp (Outcome.first_of_done h)
  by_cases hc : dst.isContract
  · simp [_transfer, setBalance, require, hv, hb, hd, hp, hc] at h
  · simpa using hc

end

/-! ## After the external call -/

theorem body_call {now : Int} {k : Call} {w w' : World} {r : Fallback}
    {g : World → Outcome Abort Fallback World Unit}
    (h : body now k w = .call r w' g) :
    ∃ dst value data, k.method = .transfer dst value data
      ∧ dst.isContract = true
      ∧ r = ⟨dst, k.caller, value, data.getD (getBytes "None")⟩
      ∧ g = fun v => .done () { v with
        events := v.events
          ++ [.Transfer k.caller dst value (data.getD (getBytes "None"))] } := by
  obtain ⟨c, m⟩ := k
  rw [body_apply] at h
  by_cases hm : ∃ dst value data, m = .transfer dst value data
  · obtain ⟨dst, value, data, rfl⟩ := hm
    obtain ⟨_, _, h⟩ := Program.Silent.call_of_bind _ h
    exact ⟨dst, value, data, rfl, _transfer_call h⟩
  · push Not at hm
    exact ((silent_external hm).ne_call _ _ _ _ h).elim

/-- The call hands control to its recipient, and logs its move only then. -/
def Method.callsBack : Method → Bool
  | .transfer dst _ _ => dst.isContract
  | _ => false

/-- An accepted call that calls nobody back has ended. -/
theorem body_done_of_first {now : Int} {k : Call} {w w' : World}
    (hk : k.method.callsBack = false) (h : (body now k w).first = some w') :
    body now k w = .done () w' := by
  rcases Outcome.first_eq_some h with ⟨_, ho⟩ | ⟨r, g, ho⟩
  · exact ho
  · obtain ⟨dst, value, data, hm, hc, -⟩ := body_call ho
    rw [hm, Method.callsBack, hc] at hk
    cases hk

theorem Effect.done {now : Int} {k : Call} {w : World} {s : Storage} {evs : List Event}
    {fee : Int} (h : Effect now w.storage k.caller k.method s evs fee)
    (hk : k.method.callsBack = false) :
    body now k w = .done () ⟨s, w.events ++ evs, fee⟩ :=
  body_done_of_first hk h.first

/-- A call without an effect aborts. -/
theorem body_abort {now : Int} {k : Call} {w : World} (hd : Deployed w.storage)
    (h : ∀ s evs fee, ¬ Effect now w.storage k.caller k.method s evs fee) :
    ∃ e, body now k w = .abort e := by
  refine Outcome.first_eq_none (Option.eq_none_iff_forall_ne_some.mpr ?_)
  intro w' hw
  obtain ⟨s, evs, fee, he, -⟩ := Effect.of_first hd hw
  exact h s evs fee he

/-- After its external call the contract only logs the transfer. -/
theorem resumption_eq {g : Exec Unit} (h : Resumption body g) :
    ∃ src dst value data, g = emit (.Transfer src dst value data) := by
  induction h with
  | entry h =>
      obtain ⟨_, _, _, -, -, -, rfl⟩ := body_call h
      exact ⟨_, _, _, _, rfl⟩
  | again _ h ih =>
      obtain ⟨_, _, _, _, rfl⟩ := ih
      cases h

theorem body_quiet : Quiet body World.storage := by
  intro g hg w
  obtain ⟨_, _, _, _, rfl⟩ := resumption_eq hg
  exact ⟨_, rfl, rfl⟩

/-! ## Deployed contracts -/

theorem Deployed.effect {now : Int} {s s' : Storage} {c : Address} {m : Method}
    {evs : List Event} {fee : Int} (h : Deployed s)
    (he : Effect now s c m s' evs fee) : Deployed s' := by
  cases he with
  | transferAdminRight => exact { h with admin := rfl }
  | togglePause => exact { h with paused := rfl }
  | changeFreeDailyTxLimit => exact { h with freeDailyTxLimit := rfl }
  | _ => exact { h with }

theorem body_replayable : Replayable body World.storage Deployed where
  keep hd h := by
    obtain ⟨s, evs, fee, he, rfl⟩ := Effect.of_first hd h
    exact hd.effect he
  replay {now k w w' v} hd h hv := by
    obtain ⟨s, evs, fee, he, rfl⟩ := Effect.of_first hd h
    exact ⟨⟨s, v.events ++ evs, fee⟩, (hv ▸ he : Effect now v.storage ..).first, rfl⟩

end StableCoin
