import Mathlib.Data.List.Nodup
import Mathlib.Data.List.Range
import ReverseSlop.Core.Frida.Rpc

namespace slop.core.frida

open Function (update)
open Numeral (ascii)

/-- What the agent answers to a request, with the rest of the array. -/
def agent_reply (id : Nat) (rest : List UInt8) : List UInt8 := ascii "[\"frida:rpc\"," ++ (Numeral.print 10 id ++ 44 :: rest)

section

variable {id n : Nat} {rest : List UInt8}

theorem comma_not_printed (n : Nat) : ∀ b ∈ Numeral.print 10 n, b ≠ 44 := by
  have hdigit : ∀ d < 10, Numeral.upper d ≠ 44 := by decide
  obtain ⟨ds, -, hds, -, hprint⟩ := @Numeral.print_eq 10 n (by decide)
  rw [hprint, List.forall_mem_map]
  exact fun d hd => hdigit d (hds d hd)

theorem stoull_print (n : Nat) : stoull (Numeral.print 10 n) = if n ≥ 2 ^ 64 then none else some n.toUInt64 := by
  obtain ⟨ds, hne, hds, hvalue, hprint⟩ := @Numeral.print_eq 10 n (by decide)
  have hsign := Numeral.sign_map_upper (by decide) hds hne []
  have hdigits := Numeral.digits_map_upper (by decide) hds [] (by simp)
  rw [List.append_nil] at hsign hdigits
  rw [hprint, stoull, hsign]
  dsimp only
  rw [hdigits, hvalue]
  simp only [hne, false_or, Bool.false_eq_true, if_false]

/-- An answer has the id of its request. -/
theorem rpc_reply_id_agent_reply (n : Nat) (rest : List UInt8) :
    rpc_reply_id (agent_reply n rest) = if n ≥ 2 ^ 64 then none else some n.toUInt64 := by
  have hnot : ∀ b ∈ Numeral.print 10 n, (b ≠ 44 : Bool) = true := fun b hb => decide_eq_true (comma_not_printed n b hb)
  have hhead : ascii "[\"frida:rpc\"," = [91, 34, 102, 114, 105, 100, 97, 58, 114, 112, 99, 34, 44] := by decide
  have hbracket : 91 ∈ agent_reply n rest := by
    rw [agent_reply, hhead]
    exact List.mem_cons_self
  have hstart : (agent_reply n rest).dropWhile (· ≠ 91) = agent_reply n rest := by
    rw [agent_reply, hhead]
    rfl
  have hcomma : (agent_reply n rest).dropWhile (· ≠ 44) = 44 :: (Numeral.print 10 n ++ 44 :: rest) := by
    rw [agent_reply, hhead]
    rfl
  have htok : (Numeral.print 10 n ++ 44 :: rest).takeWhile (· ≠ 44) = Numeral.print 10 n := by
    rw [List.takeWhile_append_of_pos hnot, List.takeWhile_cons_of_neg (by decide), List.append_nil]
  have hne : Numeral.print 10 n ≠ [] := by
    obtain ⟨ds, hne, -, -, hprint⟩ := @Numeral.print_eq 10 n (by decide)
    rw [hprint]
    exact fun h => hne (List.map_eq_nil_iff.mp h)
  rw [rpc_reply_id, if_pos hbracket, hstart, hcomma]
  dsimp only
  rw [if_pos (List.mem_append_right _ List.mem_cons_self), htok, if_neg hne, stoull_print]

end

/-- A reply to the request of the call. -/
def rpc_call_t.Receives (call : rpc_call_t) (reply : List UInt8) : Prop :=
  ∃ r id, call.request = some (r, id) ∧ rpc_reply_id reply = some id

/-- What a call has when it is at a stage. -/
def rpc_call_t.At (call : rpc_call_t) : call_stage_t → Prop
  | .idle | .begun | .found _ => call.request = none ∧ call.wait = {}
  | .left true _ | .erased true _ => call.wait.done = true
  | .checked => call.Receives call.wait.reply_json
  | .ended (.ok reply) => call.Receives reply
  | _ => True

/-- What ends the wait of a call without an error is a reply to it. -/
structure rpc_call_t.Sound (call : rpc_call_t) : Prop where
  stage : call.At call.stage
  fair : call.wait.done = true → call.wait.error = "" → call.Receives call.wait.reply_json

section

variable {call : rpc_call_t} {stage : call_stage_t} {r : Nat} {id : UInt64} {reply : List UInt8} {done request_cancelled : Bool}

theorem rpc_call_t.Sound.move (h : call.Sound) (hstage : call.At stage) : { call with stage }.Sound := ⟨hstage, h.fair⟩

theorem rpc_call_t.Sound.post (hrequest : call.wait = {}) : { call with stage := .waiting, request := some (r, id) }.Sound := by
  refine ⟨trivial, fun hdone => ?_⟩
  dsimp only at hdone
  rw [hrequest] at hdone
  cases hdone

/-- A call that has sent its request stays sound with another wait that is done. -/
theorem rpc_call_t.Sound.wake {wait : rpc_wait_t} (h : call.Sound) (hsent : call.request ≠ none) (hdone : wait.done = true)
    (hreply : call.Receives call.wait.reply_json → call.Receives wait.reply_json)
    (hfair : wait.error = "" → call.Receives wait.reply_json) : { call with wait }.Sound := by
  refine ⟨?_, fun _ => hfair⟩
  have hstage := h.stage
  obtain ⟨script, timeout_ms, stage, request, wait'⟩ := call
  unfold rpc_call_t.At at hstage ⊢
  dsimp only at hstage ⊢
  cases stage with
  | idle | begun | found r => exact absurd hstage.1 hsent
  | waiting => trivial
  | left done request_cancelled | erased done request_cancelled =>
    cases done with
    | false => trivial
    | true => exact hdone
  | checked => exact hreply hstage
  | ended result =>
    cases result with
    | error e => trivial
    | ok reply => exact hstage

theorem rpc_call_t.Sound.check (h : call.Sound) (hat : call.At (.erased done request_cancelled)) :
    call.At (call.check id done request_cancelled) := by
  unfold rpc_call_t.check
  split
  · trivial
  split
  · trivial
  rename_i hdone
  split
  · trivial
  · rename_i herror
    cases done with
    | false => exact absurd rfl hdone
    | true => exact h.fair hat (not_not.mp herror)

end

/-- The ids of a script are counted up from one. -/
structure script_rec_t.Sound (rec : script_rec_t) : Prop where
  sorted : SortedMap.Sorted rec.waits
  ids : rec.posted.map Prod.fst = (List.range rec.posted.length).map fun k => (k + 1).toUInt64
  next : rec.next_rpc_id = (rec.posted.length + 1).toUInt64

section

variable {rec : script_rec_t} {c : Nat}

theorem script_rec_t.Sound.new : ({} : script_rec_t).Sound := ⟨SortedMap.Sorted.nil, rfl, rfl⟩

theorem script_rec_t.Sound.post (h : rec.Sound) (c : Nat) : (rec.post c).Sound := by
  refine ⟨h.sorted.set _ _, ?_, ?_⟩
  · rw [script_rec_t.post, List.map_append, h.ids, List.length_append, List.length_singleton, List.range_succ, List.map_append,
      h.next]
    rfl
  · rw [script_rec_t.post, h.next, List.length_append, List.length_singleton]
    simp only [Nat.toUInt64_eq, UInt64.ofNat_add]
    rfl

/-- Up to 2 ^ 64 requests have different ids. -/
theorem script_rec_t.Sound.nodup (h : rec.Sound) (hbound : rec.posted.length ≤ 2 ^ 64) : (rec.posted.map Prod.fst).Nodup := by
  rw [h.ids]
  refine List.Nodup.map_on (fun k hk k' hk' hid => ?_) List.nodup_range
  rw [List.mem_range] at hk hk'
  have hsame := congrArg UInt64.toNat hid
  rw [Nat.toUInt64_eq, Nat.toUInt64_eq, UInt64.toNat_ofNat', UInt64.toNat_ofNat'] at hsame
  omega

end

/-- The call is in the table, up to its erasure. -/
def call_stage_t.InTable : call_stage_t → Prop
  | .waiting | .left _ _ => True
  | _ => False

/-- The tables, the callbacks and the teardown know calls by their requests. -/
structure frida_service_t.Tracked (s : frida_service_t) : Prop where
  calls : ∀ c, (s.calls c).Sound
  recs : ∀ r rec, s.recs r = some rec → rec.Sound
  posted : ∀ c r id, (s.calls c).request = some (r, id) → ∃ rec, s.recs r = some rec ∧ (id, c) ∈ rec.posted
  table : ∀ r rec id c, s.recs r = some rec → (id, c) ∈ rec.waits →
    (s.calls c).request = some (r, id) ∧ (s.calls c).stage.InTable
  holds : ∀ k reply c, s.callbacks k = .holds reply c → (s.calls c).Receives reply
  listed : ∀ t r l c, s.teardown = some t → t.now = some (r, some l) → c ∈ l → ∃ id, (s.calls c).request = some (r, id)
  reason : ∀ t, s.teardown = some t → t.reason ≠ ""

namespace frida_service_t

section

variable {s : frida_service_t} {rec rec' : script_rec_t} {call : rpc_call_t} {stage : call_stage_t} {callback : callback_t}
  {teardown : Option teardown_t} {c c' r k : Nat} {id : UInt64}

/-- A call can change all but its request. -/
theorem Tracked.set_call (h : s.Tracked) (hsound : call.Sound) (hrequest : call.request = (s.calls c).request)
    (htable : ∀ r rec id, s.recs r = some rec → (id, c) ∈ rec.waits → call.stage.InTable) :
    (s.set_call c call).Tracked := by
  have hrequests (c' : Nat) : ((s.set_call c call).calls c').request = (s.calls c').request := by
    by_cases hc : c' = c
    · rw [hc, set_call_self, hrequest]
    · rw [set_call_of_ne hc]
  refine ⟨fun c' => ?_, h.recs, fun c' => ?_, fun r rec id c' hrec hwait => ⟨?_, ?_⟩, fun k reply c' hholds => ?_,
    fun t r l c' ht hnow hc => ?_, h.reason⟩
  · by_cases hc : c' = c
    · rw [hc, set_call_self]
      exact hsound
    · rw [set_call_of_ne hc]
      exact h.calls c'
  · rw [hrequests]
    exact h.posted c'
  · rw [hrequests]
    exact (h.table r rec id c' hrec hwait).1
  · by_cases hc : c' = c
    · subst hc
      rw [set_call_self]
      exact htable r rec id hrec hwait
    · rw [set_call_of_ne hc]
      exact (h.table r rec id c' hrec hwait).2
  · rw [rpc_call_t.Receives, hrequests]
    exact h.holds k reply c' hholds
  · rw [hrequests]
    exact h.listed t r l c' ht hnow hc

theorem Tracked.move (h : s.Tracked) (hat : (s.calls c).At stage) (htable : (s.calls c).stage.InTable → stage.InTable) :
    (s.move c stage).Tracked :=
  h.set_call ((h.calls c).move hat) rfl fun r rec id hrec hwait => htable (h.table r rec id c hrec hwait).2

/-- A script can lose waits, and its object. -/
theorem Tracked.set_rec (h : s.Tracked) (hrec : s.recs r = some rec) (hsound : rec'.Sound) (hposted : rec'.posted = rec.posted)
    (hwaits : ∀ e ∈ rec'.waits, e ∈ rec.waits) : (s.set_rec r rec').Tracked := by
  refine ⟨h.calls, fun r' rec'' hr => ?_, fun c r' id hc => ?_, fun r' rec'' id c hr hwait => ?_, h.holds, h.listed, h.reason⟩
  · by_cases hsame : r' = r
    · rw [hsame, set_rec_self] at hr
      cases hr
      exact hsound
    · rw [set_rec_of_ne hsame] at hr
      exact h.recs r' rec'' hr
  · obtain ⟨rec'', hr, hmem⟩ := h.posted c r' id hc
    by_cases hsame : r' = r
    · subst hsame
      obtain rfl := Option.some.inj (hrec.symm.trans hr)
      exact ⟨rec', set_rec_self, hposted ▸ hmem⟩
    · exact ⟨rec'', (set_rec_of_ne hsame).trans hr, hmem⟩
  · by_cases hsame : r' = r
    · rw [hsame, set_rec_self] at hr
      cases hr
      exact hsame ▸ h.table r rec id c hrec (hwaits _ hwait)
    · rw [set_rec_of_ne hsame] at hr
      exact h.table r' rec'' id c hr hwait

theorem Tracked.set_callback (h : s.Tracked) (hholds : ∀ reply c, callback = .holds reply c → (s.calls c).Receives reply) :
    (s.set_callback k callback).Tracked := by
  refine ⟨h.calls, h.recs, h.posted, h.table, fun k' reply c hc => ?_, h.listed, h.reason⟩
  by_cases hsame : k' = k
  · rw [hsame, set_callback_self] at hc
    exact hholds reply c hc
  · rw [set_callback_of_ne hsame] at hc
    exact h.holds k' reply c hc

theorem Tracked.tear (h : s.Tracked) (scripts : List (String × Nat)) (hreason : ∀ t, teardown = some t → t.reason ≠ "")
    (hlisted : ∀ t r l c, teardown = some t → t.now = some (r, some l) → c ∈ l →
      ∃ id, (s.calls c).request = some (r, id)) :
    { s with scripts, teardown }.Tracked :=
  ⟨h.calls, h.recs, h.posted, h.table, h.holds, hlisted, hreason⟩

theorem Tracked.init : ({} : frida_service_t).Tracked := by
  refine ⟨fun c => ⟨⟨rfl, rfl⟩, ?_⟩, ?_, ?_, ?_, ?_, ?_, ?_⟩
  · rintro ⟨⟩
  · rintro r rec ⟨⟩
  · rintro c r id ⟨⟩
  · rintro r rec id c ⟨⟩
  · rintro k reply c ⟨⟩
  · rintro t r l c ⟨⟩
  · rintro t ⟨⟩

theorem Tracked.create (h : s.Tracked) (hnew : s.recs r = none) (scripts : List (String × Nat)) :
    { s.set_rec r {} with scripts }.Tracked := by
  have hold : ∀ {r' rec'}, s.recs r' = some rec' → (s.set_rec r {}).recs r' = some rec' := by
    intro r' rec' hr
    refine (set_rec_of_ne ?_).trans hr
    rintro rfl
    rw [hnew] at hr
    cases hr
  have hcases : ∀ {r' rec'}, (s.set_rec r {}).recs r' = some rec' → rec' = {} ∨ s.recs r' = some rec' := by
    intro r' rec' hr
    by_cases hsame : r' = r
    · rw [hsame, set_rec_self] at hr
      exact .inl (Option.some.inj hr).symm
    · exact .inr ((set_rec_of_ne hsame).symm.trans hr)
  refine ⟨h.calls, fun r' rec' hr => ?_, fun c r' id hc => ?_, fun r' rec' id c hr hwait => ?_, h.holds, h.listed, h.reason⟩
  · rcases hcases hr with rfl | hr
    · exact .new
    · exact h.recs r' rec' hr
  · obtain ⟨rec', hr, hmem⟩ := h.posted c r' id hc
    exact ⟨rec', hold hr, hmem⟩
  · rcases hcases hr with rfl | hr
    · cases hwait
    · exact h.table r' rec' id c hr hwait

theorem Tracked.post (h : s.Tracked) (hrec : s.recs r = some rec) (hfresh : (s.calls c).request = none)
    (hwait : (s.calls c).wait = {}) :
    ((s.set_rec r (rec.post c)).set_call c
      { s.calls c with stage := .waiting, request := some (r, rec.next_rpc_id) }).Tracked := by
  set call : rpc_call_t := { s.calls c with stage := .waiting, request := some (r, rec.next_rpc_id) } with hcall
  have hother : ∀ {c' r' id}, (s.calls c').request = some (r', id) →
      ((s.set_rec r (rec.post c)).set_call c call).calls c' = s.calls c' := by
    intro c' r' id hc'
    refine set_call_of_ne ?_
    rintro rfl
    rw [hfresh] at hc'
    cases hc'
  have hposted : ∀ {r' rec' e}, s.recs r' = some rec' → e ∈ rec'.posted →
      ∃ rec'', (s.set_rec r (rec.post c)).recs r' = some rec'' ∧ e ∈ rec''.posted := by
    intro r' rec' e hr he
    by_cases hsame : r' = r
    · subst hsame
      obtain rfl := Option.some.inj (hrec.symm.trans hr)
      exact ⟨_, set_rec_self, List.mem_append_left _ he⟩
    · exact ⟨rec', (set_rec_of_ne hsame).trans hr, he⟩
  have htable : ∀ {r' rec' id c'}, s.recs r' = some rec' → (id, c') ∈ rec'.waits →
      (((s.set_rec r (rec.post c)).set_call c call).calls c').request = some (r', id) ∧
        (((s.set_rec r (rec.post c)).set_call c call).calls c').stage.InTable := by
    intro r' rec' id c' hr hmem
    have hold := h.table r' rec' id c' hr hmem
    rw [hother hold.1]
    exact hold
  refine ⟨fun c' => ?_, fun r' rec' hr => ?_, fun c' r' id hc' => ?_, fun r' rec' id c' hr hmem => ?_,
    fun k reply c' hholds => ?_, fun t r' l c' ht hnow hl => ?_, h.reason⟩
  · by_cases hc : c' = c
    · rw [hc, set_call_self]
      exact .post hwait
    · rw [set_call_of_ne hc]
      exact h.calls c'
  · by_cases hsame : r' = r
    · rw [hsame] at hr
      obtain rfl := Option.some.inj (set_rec_self.symm.trans hr)
      exact (h.recs r rec hrec).post c
    · exact h.recs r' rec' ((set_rec_of_ne hsame).symm.trans hr)
  · by_cases hc : c' = c
    · rw [hc, set_call_self] at hc'
      cases hc'
      exact ⟨_, set_rec_self, hc ▸ List.mem_append_right _ List.mem_cons_self⟩
    · rw [set_call_of_ne hc] at hc'
      obtain ⟨rec', hr, hmem⟩ := h.posted c' r' id hc'
      exact hposted hr hmem
  · by_cases hsame : r' = r
    · subst hsame
      obtain rfl := Option.some.inj (set_rec_self.symm.trans hr)
      rcases (SortedMap.mem_set (h.recs r' rec hrec).sorted).mp hmem with hnew | ⟨hmem, -⟩
      · cases hnew
        rw [set_call_self]
        exact ⟨rfl, trivial⟩
      · exact htable hrec hmem
    · exact htable ((set_rec_of_ne hsame).symm.trans hr) hmem
  · have hold := h.holds k reply c' hholds
    obtain ⟨r', id, hc', -⟩ := hold
    rw [hother hc']
    exact h.holds k reply c' hholds
  · obtain ⟨id, hc'⟩ := h.listed t r' l c' ht hnow hl
    rw [hother hc']
    exact ⟨id, hc'⟩

/-- The call that leaves takes its own request out of the table. -/
theorem Tracked.erase (h : s.Tracked) (hrec : s.recs r = some rec) (hrequest : (s.calls c).request = some (r, id))
    (hat : (s.calls c).At stage) :
    ((s.set_rec r { rec with waits := SortedMap.erase id rec.waits }).move c stage).Tracked := by
  have hrecs := h.recs r rec hrec
  have hset : (s.set_rec r { rec with waits := SortedMap.erase id rec.waits }).Tracked := by
    refine h.set_rec hrec ⟨hrecs.sorted.erase id, hrecs.ids, hrecs.next⟩ rfl fun e he => ?_
    exact (SortedMap.mem_erase.mp he).1
  refine hset.set_call ((h.calls c).move hat) rfl fun r' rec' id' hr hwait => ?_
  have hsame := (hset.table r' rec' id' c hr hwait).1.symm.trans hrequest
  cases hsame
  obtain rfl := Option.some.inj (set_rec_self.symm.trans hr)
  exact absurd rfl (SortedMap.mem_erase.mp hwait).2

theorem lookup_at (scripts : List (String × Nat)) (hat : call.At .begun) : call.At (call.lookup scripts) := by
  rw [rpc_call_t.lookup]
  split
  · trivial
  · exact hat

theorem lookup_of_find {scripts : List (String × Nat)} (hfind : SortedMap.find call.script scripts = some r) :
    call.lookup scripts = .found r := by
  rw [rpc_call_t.lookup, hfind]

theorem lookup_in_table (call : rpc_call_t) (scripts : List (String × Nat)) : ¬ (call.lookup scripts).InTable := by
  rw [rpc_call_t.lookup]
  split <;> exact id

theorem check_in_table (call : rpc_call_t) (done request_cancelled : Bool) : ¬ (call.check id done request_cancelled).InTable := by
  rw [rpc_call_t.check]
  split
  · exact fun h => h
  split
  · exact fun h => h
  split <;> exact fun h => h

/-- Who waits for what is known after each step. -/
theorem Tracked.step {s' : frida_service_t} (h : s.Tracked) (hstep : Step s s') : s'.Tracked := by
  cases hstep with
  | create_script handle r hmu hnew => exact h.create hnew _
  | rpc_call c script timeout_ms hidle =>
    have hat := (h.calls c).stage
    rw [hidle] at hat
    refine h.set_call ⟨hat, (h.calls c).fair⟩ rfl fun r rec id hrec hwait => ?_
    have hin := (h.table r rec id c hrec hwait).2
    rw [hidle] at hin
    exact hin.elim
  | refuse c error hbegun => exact h.move trivial fun hin => by rw [hbegun] at hin; exact hin.elim
  | lookup c hbegun hmu =>
    have hat := (h.calls c).stage
    rw [hbegun] at hat
    exact h.move (lookup_at _ hat) fun hin => by rw [hbegun] at hin; exact hin.elim
  | gone c r rec hfound hmu hrec hobj => exact h.move trivial fun hin => by rw [hfound] at hin; exact hin.elim
  | post c r rec hfound hmu hrec hobj =>
    have hat := (h.calls c).stage
    rw [hfound] at hat
    exact h.post hrec hat.1 hat.2
  | leave c request_cancelled hwaiting hcancelled =>
    refine h.move ?_ fun _ => trivial
    cases hdone : (s.calls c).wait.done with
    | false => trivial
    | true => exact hdone
  | erase c r id rec done request_cancelled hleft hrequest hrec =>
    have hat := (h.calls c).stage
    rw [hleft] at hat
    exact h.erase hrec hrequest (by cases done <;> exact hat)
  | check c r id done request_cancelled herased hrequest =>
    have hat := (h.calls c).stage
    rw [herased] at hat
    exact h.move ((h.calls c).check hat) fun hin => by rw [herased] at hin; exact hin.elim
  | return_reply c hchecked =>
    have hat := (h.calls c).stage
    rw [hchecked] at hat
    exact h.move hat fun hin => by rw [hchecked] at hin; exact hin.elim
  | on_script_message k r reply hidle =>
    refine h.set_callback ?_
    rintro reply c ⟨⟩
  | drop_reply k r reply rec harrived hrec hnone =>
    refine h.set_callback ?_
    rintro reply c ⟨⟩
  | find_wait k r c reply rec harrived hrec hfind =>
    refine h.set_callback ?_
    rintro reply c ⟨⟩
    obtain ⟨id, hid, hfound⟩ := Option.bind_eq_some_iff.mp hfind
    have hwait := (SortedMap.find_eq_some (h.recs r rec hrec).sorted).mp hfound
    exact ⟨r, id, (h.table r rec id c hrec hwait).1, hid⟩
  | give_reply k c reply hholds =>
    have hreceives := h.holds k reply c hholds
    have hset : (s.set_callback k (.given c)).Tracked := h.set_callback (by rintro reply c ⟨⟩)
    refine hset.set_call ((h.calls c).wake ?_ rfl (fun _ => hreceives) fun _ => hreceives) rfl
      fun r rec id hrec hwait => (h.table r rec id c hrec hwait).2
    obtain ⟨r, id, hrequest, -⟩ := hreceives
    rw [hrequest]
    exact Option.some_ne_none _
  | destroy_script handle r hmu hfind =>
    refine h.tear s.scripts ?_ ?_
    · rintro t ⟨⟩
      change "script destroyed" ≠ ""
      decide
    · rintro t r l c ⟨⟩ ⟨⟩
  | shutdown hmu =>
    refine h.tear s.scripts ?_ ?_
    · rintro t ⟨⟩
      change "frida service shut down" ≠ ""
      decide
    · rintro t r l c ⟨⟩ ⟨⟩
  | hold t r todo ht hnow htodo =>
    refine h.tear s.scripts ?_ ?_
    · rintro t' ⟨⟩
      exact h.reason t ht
    · rintro t' r l c ⟨⟩ ⟨⟩
  | take_waits t r rec ht hnow hrec =>
    have hrecs := h.recs r rec hrec
    have hset : (s.set_rec r { rec with waits := [] }).Tracked :=
      h.set_rec hrec ⟨.nil, hrecs.ids, hrecs.next⟩ rfl fun e he => absurd he List.not_mem_nil
    refine hset.tear s.scripts ?_ ?_
    · rintro t' ⟨⟩
      exact h.reason t ht
    · rintro t' r' l c ⟨⟩ hl hc
      cases hl
      obtain ⟨⟨id, c'⟩, he, rfl⟩ := List.mem_map.mp hc
      exact ⟨id, (h.table r rec id c' hrec he).1⟩
  | cancel_wait t r c waits ht hnow =>
    obtain ⟨id, hrequest⟩ := h.listed t r _ c ht hnow List.mem_cons_self
    have hwake : (s.set_call c { s.calls c with wait := { (s.calls c).wait with done := true, error := t.reason } }).Tracked := by
      refine h.set_call ((h.calls c).wake (by rw [hrequest]; exact Option.some_ne_none _) rfl (fun hreply => hreply)
        fun hnone => ?_) rfl
        fun r rec id hrec hwait => (h.table r rec id c hrec hwait).2
      exact absurd hnone (h.reason t ht)
    refine hwake.tear s.scripts ?_ ?_
    · rintro t' ⟨⟩
      exact h.reason t ht
    · rintro t' r' l c' ⟨⟩ hl hc
      cases hl
      exact hwake.listed t r _ c' ht hnow (List.mem_cons_of_mem c hc)
  | release t r rec ht hnow hrec =>
    have hrecs := h.recs r rec hrec
    have hset : (s.set_rec r { rec with obj := false }).Tracked :=
      h.set_rec hrec ⟨hrecs.sorted, hrecs.ids, hrecs.next⟩ rfl fun e he => he
    refine hset.tear s.scripts ?_ ?_
    · rintro t' ⟨⟩
      exact h.reason t ht
    · rintro t' r l c ⟨⟩ ⟨⟩
  | return_teardown t ht hnow htodo =>
    refine h.tear _ ?_ ?_
    · rintro t' ⟨⟩
    · rintro t' r l c ⟨⟩

end

end frida_service_t

end slop.core.frida
