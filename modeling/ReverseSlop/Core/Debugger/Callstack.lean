import ReverseSlop.Core.Disasm.BinaryState
import ReverseSlop.Library.Bytes
import Mathlib.Data.List.Chain

namespace slop.core.debugger.unwind

open disasm

/-- A read of some bytes at an address, which may fail. -/
structure reader_t where
  read : UInt64 → Nat → Option (List UInt8)

/-- The eight bytes at an address as a number. -/
def reader_t.word (rdr : reader_t) (addr : UInt64) : Option UInt64 :=
  (rdr.read addr 8).map fun bytes => UInt64.ofNat (Bytes.of_le bytes)

structure frame_t where
  ret_addr : UInt64 := 0
  frame_ptr : UInt64 := 0
  snippet : String := ""
  scanned : Bool := false
  deriving DecidableEq

def kUserMax : UInt64 := 0x7FFFFFFEFFFF

section

variable (eng : engine_t) (rdr : reader_t)

/-- The instruction at an address, if the 16 bytes there can be read. -/
def code_at (va : UInt64) : Option (Option insn_t) := (rdr.read va 16).map (eng.decode va)

def plausible_code (va : UInt64) : Bool :=
  va ≠ 0 && va ≤ kUserMax && ((code_at eng rdr va).bind id).any fun insn => insn.length > 0

def snippet_at (va : UInt64) : String := ((code_at eng rdr va).bind id).elim "" insn_t.text

/-- Frame 0: the return address at `rsp`. -/
def top_frame (rsp : UInt64) : List frame_t :=
  match rdr.word rsp with
  | some ret => if ret ≠ 0 ∧ ret ≤ kUserMax then [{ ret_addr := ret, snippet := snippet_at eng rdr ret }] else []
  | none => []

/-- The frame at a link of the chain; without code its return address is 0. -/
def chain_frame (fp saved_ret : UInt64) : frame_t :=
  if saved_ret ≠ 0 ∧ saved_ret ≤ kUserMax then
    match code_at eng rdr saved_ret with
    | some (some insn) => { ret_addr := saved_ret, frame_ptr := fp, snippet := insn.text }
    | some none => { ret_addr := 0, frame_ptr := fp }
    | none => { ret_addr := saved_ret, frame_ptr := fp }
  else { ret_addr := saved_ret, frame_ptr := fp }

/-- Frame 0 is the only one so far and has this return address. -/
def duplicate (out : List frame_t) (f : frame_t) : Bool :=
  match out with
  | [top] => top.ret_addr = f.ret_addr && top.frame_ptr = 0
  | _ => false

def push (out : List frame_t) (f : frame_t) : List frame_t :=
  if f.ret_addr ≠ 0 ∧ duplicate out f = false then out ++ [f] else out

/-- The walk along the saved frame pointers, with what is left of the guard. -/
def walk_chain (max_frames : UInt64) : Nat → List UInt64 → UInt64 → List frame_t → List frame_t
  | 0, _, _, out => out
  | guard + 1, seen, fp, out =>
    if fp = 0 ∨ fp > kUserMax ∨ fp ∈ seen then out
    else
      match rdr.word fp, rdr.word (fp + 8) with
      | some saved_rbp, some saved_ret =>
        if saved_rbp = 0 ∨ (saved_rbp > fp ∧ saved_rbp ≤ kUserMax) then
          let out := push out (chain_frame eng rdr fp saved_ret)
          if saved_rbp = 0 ∨ out.length ≥ max_frames.toNat then out
          else walk_chain max_frames guard (fp :: seen) saved_rbp out
        else out
      | _, _ => out

/-- The scan of the stack above `rsp`, with the offsets that are left. -/
def scan_stack (max_frames rsp : UInt64) (known : List UInt64) : List UInt64 → List frame_t → List frame_t
  | [], out => out
  | off :: offs, out =>
    if out.length ≥ max_frames.toNat then out
    else
      match rdr.word (rsp + off) with
      | none => out
      | some cand =>
        if cand ≤ rsp ∨ cand > kUserMax ∨ cand ∈ known ∨ plausible_code eng rdr cand = false ∨
            (out.any fun f => f.ret_addr = cand) = true then
          scan_stack max_frames rsp known offs out
        else
          scan_stack max_frames rsp known offs
            (out ++ [{ ret_addr := cand, snippet := snippet_at eng rdr cand, scanned := true }])

/-- The offsets from 8 up to `kScanBytes`. -/
def scan_offsets : List UInt64 := (List.range 255).map fun i => UInt64.ofNat (8 * (i + 1))

def walk_stack (_rip rsp rbp max_frames : UInt64) : List frame_t :=
  if max_frames = 0 then []
  else
    let out := top_frame eng rdr rsp
    if out.length ≥ max_frames.toNat then out
    else
      let out := walk_chain eng rdr max_frames (max_frames * 4 + 32).toNat [] rbp out
      if out.length < 3 then scan_stack eng rdr max_frames rsp (out.map frame_t.ret_addr) scan_offsets out else out

end

structure seh_entry_t where
  handler : UInt64 := 0
  filter : UInt64 := 0
  frame : UInt64 := 0

structure seh_result_t where
  chain : List seh_entry_t := []
  scan_candidates : List UInt64 := []
  chain_empty_proven : Bool := false
  note : String := ""

def kSentinel : UInt64 := 0xFFFFFFFFFFFFFFFF

/-- The loop of `seh_chain`: the head and the result behind it, or nothing if more passes are needed. -/
def seh_loop (rdr : reader_t) : Nat → UInt64 → List UInt64 → seh_result_t → Option (UInt64 × seh_result_t)
  | 0, _, _, _ => none
  | passes + 1, head, seen, res =>
    if head = kSentinel ∨ head = 0 then some (head, res)
    else if head > kUserMax ∨ head ∈ seen then
      some (head, { res with note := "chain stop reason: implausible or cyclic entry" })
    else
      match rdr.word head, rdr.word (head + 8) with
      | some next, some handler =>
        let res := { res with chain := res.chain ++ [{ handler, frame := head }] }
        if res.chain.length ≥ 32 then some (next, { res with note := "chain truncated at 32 entries" })
        else seh_loop rdr passes next (head :: seen) res
      | _, _ => some (head, { res with note := "chain stop reason: unreadable record" })

def seh_chain (rdr : reader_t) (passes : Nat) (teb_addr : UInt64) : Option seh_result_t :=
  if teb_addr = 0 then some { note := "no TEB address available" }
  else
    match rdr.word teb_addr with
    | none => some { note := "TEB read failed" }
    | some head =>
      (seh_loop rdr passes head [] {}).map fun (head, res) =>
        if head = kSentinel then { res with chain_empty_proven := res.chain.isEmpty } else res

/-- A link of the chain: where a frame pointer is saved, with the return address above it. -/
structure link_t where
  frame_ptr : UInt64
  ret_addr : UInt64

/-- What a frame pointer leads to: the frame pointer saved there, which is 0 or further up, and the return
address. -/
def reader_t.link (rdr : reader_t) (fp : UInt64) : Option (UInt64 × UInt64) :=
  if fp = 0 ∨ fp > kUserMax then none
  else
    match rdr.word fp, rdr.word (fp + 8) with
    | some saved_rbp, some saved_ret =>
      if saved_rbp = 0 ∨ (saved_rbp > fp ∧ saved_rbp ≤ kUserMax) then some (saved_rbp, saved_ret) else none
    | _, _ => none

/-- A part of the chain of saved frame pointers, from one on up to another. -/
inductive Links (rdr : reader_t) : UInt64 → List link_t → UInt64 → Prop where
  | nil (fp : UInt64) : Links rdr fp [] fp
  | cons {fp saved ret next : UInt64} {links : List link_t} (hlink : rdr.link fp = some (saved, ret))
    (hrest : Links rdr saved links next) : Links rdr fp (⟨fp, ret⟩ :: links) next

/-- The return address of a link leads to code, as far as it can be read. -/
def link_t.has_code (eng : engine_t) (rdr : reader_t) (n : link_t) : Bool :=
  n.ret_addr ≠ 0 && (n.ret_addr > kUserMax || (rdr.read n.ret_addr 16).all fun bytes => (eng.decode n.ret_addr bytes).isSome)

def link_t.frame (eng : engine_t) (rdr : reader_t) (n : link_t) : frame_t := chain_frame eng rdr n.frame_ptr n.ret_addr

section

variable {eng : engine_t} {rdr : reader_t} {fp next rsp rbp max_frames : UInt64} {links : List link_t} {n : link_t}
  {out : List frame_t} {f top : frame_t}

theorem link_cases {saved ret : UInt64} (hlink : rdr.link fp = some (saved, ret)) :
    fp ≠ 0 ∧ fp ≤ kUserMax ∧ rdr.word fp = some saved ∧ rdr.word (fp + 8) = some ret ∧
      (saved = 0 ∨ (saved > fp ∧ saved ≤ kUserMax)) := by
  rw [reader_t.link] at hlink
  split at hlink
  · cases hlink
  · rename_i hfp
    obtain ⟨hzero, hmax⟩ := not_or.mp hfp
    split at hlink
    · rename_i saved' ret' hsaved hret
      split at hlink
      · rename_i hok
        rw [Option.some.injEq, Prod.mk.injEq] at hlink
        obtain ⟨rfl, rfl⟩ := hlink
        exact ⟨hzero, UInt64.not_lt.mp hmax, hsaved, hret, hok⟩
      · cases hlink
    · cases hlink

/-- Along the chain the frame pointers go up. -/
theorem Links.ascending (h : Links rdr fp links next) :
    (∀ n ∈ links, fp ≤ n.frame_ptr ∧ n.frame_ptr ≠ 0) ∧ links.Pairwise fun a b => a.frame_ptr < b.frame_ptr := by
  induction h with
  | nil fp => simp
  | @cons fp saved ret next links hlink hrest ih =>
    obtain ⟨hzero, _, _, _, hnext⟩ := link_cases hlink
    obtain ⟨hall, hpairwise⟩ := ih
    have habove : ∀ n ∈ links, fp < n.frame_ptr := by
      obtain rfl | ⟨hgt, _⟩ := hnext
      · cases hrest with
        | nil => simp
        | cons hlink' _ => exact absurd (by simp) (link_cases hlink').1
      · intro n hn
        exact UInt64.lt_of_lt_of_le hgt (hall n hn).1
    refine ⟨?_, List.pairwise_cons.mpr ⟨habove, hpairwise⟩⟩
    intro n hn
    obtain rfl | hn := List.mem_cons.mp hn
    · exact ⟨UInt64.le_refl _, hzero⟩
    · exact ⟨UInt64.le_of_lt (habove n hn), (hall n hn).2⟩

@[simp]
theorem frame_frame_ptr (n : link_t) : (n.frame eng rdr).frame_ptr = n.frame_ptr := by
  rw [link_t.frame, chain_frame]
  split
  · split <;> simp
  · simp

@[simp]
theorem frame_scanned (n : link_t) : (n.frame eng rdr).scanned = false := by
  rw [link_t.frame, chain_frame]
  split
  · split <;> simp
  · simp

/-- A frame keeps its return address if it has code. -/
theorem frame_ret_addr (n : link_t) : (n.frame eng rdr).ret_addr = if n.has_code eng rdr then n.ret_addr else 0 := by
  rw [link_t.frame, chain_frame]
  by_cases hret : n.ret_addr ≠ 0 ∧ n.ret_addr ≤ kUserMax
  · rw [if_pos hret, code_at]
    have hnot : ¬ n.ret_addr > kUserMax := UInt64.not_lt.mpr hret.2
    cases hread : rdr.read n.ret_addr 16 with
    | none => simp [link_t.has_code, hret.1, hread]
    | some bytes => cases hdecode : eng.decode n.ret_addr bytes <;> simp [link_t.has_code, hret.1, hread, hdecode, hnot]
  · rw [if_neg hret]
    by_cases hzero : n.ret_addr = 0
    · simp [link_t.has_code, hzero]
    · have hgt : kUserMax < n.ret_addr := UInt64.not_le.mp fun hle => hret ⟨hzero, hle⟩
      simp [link_t.has_code, hzero, hgt]

theorem frame_ret_ne (n : link_t) : (n.frame eng rdr).ret_addr ≠ 0 ↔ n.has_code eng rdr = true := by
  rw [frame_ret_addr]
  cases hcode : n.has_code eng rdr with
  | false => simp
  | true =>
    rw [link_t.has_code, Bool.and_eq_true, decide_eq_true_eq] at hcode
    simp [hcode.1]

variable (eng rdr fp max_frames out) in
/-- The walk goes along the chain until it ends, the guard is used up or the list is full. -/
theorem walk_chain_links (guard : Nat) (seen : List UInt64) (hseen : ∀ x ∈ seen, x < fp) :
    ∃ links next, Links rdr fp links next ∧
      walk_chain eng rdr max_frames guard seen fp out = (links.map (link_t.frame eng rdr)).foldl push out ∧
      (rdr.link next = none ∨ links.length = guard ∨
        (walk_chain eng rdr max_frames guard seen fp out).length ≥ max_frames.toNat) := by
  induction guard generalizing seen fp out with
  | zero => exact ⟨[], fp, .nil fp, by simp [walk_chain], by simp⟩
  | succ guard ih =>
    cases hlink : rdr.link fp with
    | none =>
      refine ⟨[], fp, .nil fp, ?_, Or.inl hlink⟩
      rw [walk_chain, List.map_nil, List.foldl_nil]
      split
      · simp
      · rename_i hfp
        simp only [not_or] at hfp
        rw [reader_t.link, if_neg (not_or.mpr ⟨hfp.1, hfp.2.1⟩)] at hlink
        split
        · rename_i hsaved hret
          simp only [hsaved, hret] at hlink
          split at hlink
          · cases hlink
          · rename_i hbad
            rw [if_neg hbad]
        · simp
    | some p =>
      obtain ⟨saved, ret⟩ := p
      obtain ⟨hzero, hmax, hsaved, hret, hnext⟩ := link_cases hlink
      have hnew : fp ∉ seen := fun hmem => UInt64.lt_irrefl fp (hseen fp hmem)
      have hfp : ¬ (fp = 0 ∨ fp > kUserMax ∨ fp ∈ seen) := by
        simp only [not_or]
        exact ⟨hzero, UInt64.not_lt.mpr hmax, hnew⟩
      have hstep : walk_chain eng rdr max_frames (guard + 1) seen fp out =
          if saved = 0 ∨ (push out (chain_frame eng rdr fp ret)).length ≥ max_frames.toNat then
            push out (chain_frame eng rdr fp ret)
          else walk_chain eng rdr max_frames guard (fp :: seen) saved (push out (chain_frame eng rdr fp ret)) := by
        rw [walk_chain, if_neg hfp, hsaved, hret]
        simp only [hnext, if_true]
      rw [hstep]
      by_cases hstop : saved = 0 ∨ (push out (chain_frame eng rdr fp ret)).length ≥ max_frames.toNat
      · rw [if_pos hstop]
        refine ⟨[⟨fp, ret⟩], saved, .cons hlink (.nil saved), by simp [link_t.frame], ?_⟩
        obtain rfl | hfull := hstop
        · left
          simp [reader_t.link]
        · exact Or.inr (Or.inr hfull)
      · rw [if_neg hstop]
        have hgt : saved > fp := (hnext.resolve_left fun h => hstop (Or.inl h)).1
        have hseen' : ∀ x ∈ fp :: seen, x < saved := by
          intro x hx
          obtain rfl | hx := List.mem_cons.mp hx
          · exact hgt
          · exact UInt64.lt_trans (hseen x hx) hgt
        obtain ⟨links, next, hlinks, hwalk, hend⟩ := ih saved (push out (chain_frame eng rdr fp ret)) (fp :: seen) hseen'
        refine ⟨⟨fp, ret⟩ :: links, next, .cons hlink hlinks, ?_, ?_⟩
        · rw [hwalk]
          simp [link_t.frame]
        · obtain hnone | hguard | hfull := hend
          · exact Or.inl hnone
          · exact Or.inr (Or.inl (by simp [hguard]))
          · exact Or.inr (Or.inr hfull)

theorem push_frame (out : List frame_t) (n : link_t) :
    push out (n.frame eng rdr) =
      if n.has_code eng rdr = true ∧ duplicate out (n.frame eng rdr) = false then out ++ [n.frame eng rdr] else out := by
  simp only [push, frame_ret_ne]

/-- Behind a frame of the chain every further one with code is pushed. -/
theorem push_links (hout : ∀ top, out = [top] → top.frame_ptr ≠ 0) (hlinks : ∀ n ∈ links, n.frame_ptr ≠ 0) :
    (links.map (link_t.frame eng rdr)).foldl push out =
      out ++ (links.filter (link_t.has_code eng rdr)).map (link_t.frame eng rdr) := by
  induction links generalizing out with
  | nil => simp
  | cons n links ih =>
    obtain ⟨hn, hlinks⟩ := List.forall_mem_cons.mp hlinks
    have hnot : duplicate out (n.frame eng rdr) = false := by
      cases out with
      | nil => simp [duplicate]
      | cons top rest =>
        cases rest with
        | nil => simp [duplicate, hout top (by simp)]
        | cons g rest => simp [duplicate]
    rw [List.map_cons, List.foldl_cons, push_frame]
    cases hcode : n.has_code eng rdr with
    | false => simp [hcode, ih hout hlinks]
    | true =>
      rw [if_pos ⟨by simp, hnot⟩, ih ?_ hlinks]
      · simp [hcode]
      · intro top htop
        cases out with
        | nil =>
          obtain rfl : n.frame eng rdr = top := by simpa using htop
          simpa using hn
        | cons g out => simp at htop

/-- Behind frame 0 the frames with its return address are skipped. -/
theorem push_links_top (htop : top.frame_ptr = 0) (hlinks : ∀ n ∈ links, n.frame_ptr ≠ 0) :
    (links.map (link_t.frame eng rdr)).foldl push [top] =
      top :: ((links.filter (link_t.has_code eng rdr)).dropWhile fun n => top.ret_addr = n.ret_addr).map
        (link_t.frame eng rdr) := by
  induction links with
  | nil => simp
  | cons n links ih =>
    obtain ⟨hn, hlinks⟩ := List.forall_mem_cons.mp hlinks
    rw [List.map_cons, List.foldl_cons, push_frame]
    cases hcode : n.has_code eng rdr with
    | false => simp [hcode, ih hlinks]
    | true =>
      have hret : (n.frame eng rdr).ret_addr = n.ret_addr := by simp [frame_ret_addr, hcode]
      by_cases hsame : top.ret_addr = n.ret_addr
      · rw [if_neg]
        · simp [hcode, hsame, ih hlinks]
        · simp [duplicate, hret, hsame, htop]
      · rw [if_pos, push_links]
        · simp [hcode, hsame]
        · simp
        · exact hlinks
        · simp [duplicate, hret, hsame]

variable (eng rdr rsp) in
/-- What a scan adds: frames that are marked, whose return addresses are new. -/
theorem scan_stack_adds (known offs : List UInt64) (hroom : out.length ≤ max_frames.toNat) :
    ∃ scans, scan_stack eng rdr max_frames rsp known offs out = out ++ scans ∧
      (∀ f ∈ scans, f.scanned = true ∧ f.frame_ptr = 0 ∧ ∀ g ∈ out, g.ret_addr ≠ f.ret_addr) ∧
      (scans.Pairwise fun f g => f.ret_addr ≠ g.ret_addr) ∧ (out ++ scans).length ≤ max_frames.toNat := by
  induction offs generalizing out with
  | nil => exact ⟨[], by simp [scan_stack], by simp, by simp, by simpa using hroom⟩
  | cons off offs ih =>
    rw [scan_stack]
    split
    · exact ⟨[], by simp, by simp, by simp, by simpa using hroom⟩
    · rename_i hspace
      split
      · exact ⟨[], by simp, by simp, by simp, by simpa using hroom⟩
      · rename_i cand _
        split
        · exact ih hroom
        · rename_i hnew
          simp only [not_or] at hnew
          obtain ⟨_, _, _, _, hfresh⟩ := hnew
          have hroom' : (out ++ [({ ret_addr := cand, snippet := snippet_at eng rdr cand, scanned := true } : frame_t)]).length ≤
              max_frames.toNat := by
            rw [List.length_append, List.length_singleton]
            omega
          obtain ⟨scans, heq, hscans, hpairwise, hlen⟩ := ih hroom'
          refine ⟨{ ret_addr := cand, snippet := snippet_at eng rdr cand, scanned := true } :: scans, ?_, ?_, ?_, ?_⟩
          · rw [heq]
            simp
          · intro f hf
            obtain rfl | hf := List.mem_cons.mp hf
            · refine ⟨by simp, by simp, ?_⟩
              intro g hg hsame
              apply hfresh
              rw [List.any_eq_true]
              exact ⟨g, hg, by simpa using hsame⟩
            · obtain ⟨hscanned, hzero, hother⟩ := hscans f hf
              exact ⟨hscanned, hzero, fun g hg => hother g (List.mem_append_left _ hg)⟩
          · refine List.pairwise_cons.mpr ⟨?_, hpairwise⟩
            intro f hf
            exact (hscans f hf).2.2 _ (by simp)
          · simpa using hlen

theorem top_frame_cases (eng : engine_t) (rdr : reader_t) (rsp : UInt64) :
    top_frame eng rdr rsp = [] ∨ ∃ top, top_frame eng rdr rsp = [top] ∧ top.frame_ptr = 0 ∧ top.scanned = false := by
  rw [top_frame]
  split
  · split
    · exact Or.inr ⟨_, rfl, by simp, by simp⟩
    · simp
  · simp

/-- The frames with code along a part of the chain, without those in front that repeat frame 0. -/
def chain_frames (eng : engine_t) (rdr : reader_t) (rsp : UInt64) (links : List link_t) : List frame_t :=
  ((links.filter (link_t.has_code eng rdr)).dropWhile fun n =>
    (top_frame eng rdr rsp).any fun top => top.ret_addr = n.ret_addr).map (link_t.frame eng rdr)

theorem push_chain (hlinks : ∀ n ∈ links, n.frame_ptr ≠ 0) :
    (links.map (link_t.frame eng rdr)).foldl push (top_frame eng rdr rsp) =
      top_frame eng rdr rsp ++ chain_frames eng rdr rsp links := by
  obtain hnone | ⟨top, htop, hzero, _⟩ := top_frame_cases eng rdr rsp
  · have hkeep : ∀ l : List link_t, l.dropWhile (fun _ => false) = l := by
      intro l
      cases l <;> simp
    rw [chain_frames, hnone, push_links (by simp) hlinks]
    simp [hkeep]
  · rw [chain_frames, htop, push_links_top hzero hlinks]
    simp

/-- The frames of a walk: frame 0, those of a part of the chain, and those of a scan. -/
structure Walked (eng : engine_t) (rdr : reader_t) (rsp rbp max_frames : UInt64) (out : List frame_t) where
  top : List frame_t
  links : List link_t
  next : UInt64
  scans : List frame_t
  eq : out = top ++ (chain_frames eng rdr rsp links ++ scans)
  from_rsp : top = [] ∨ top = top_frame eng rdr rsp
  along : Links rdr rbp links next
  marked : ∀ f ∈ scans, f.scanned = true ∧ f.frame_ptr = 0 ∧
    ∀ g ∈ top ++ chain_frames eng rdr rsp links, g.ret_addr ≠ f.ret_addr
  distinct : scans.Pairwise fun f g => f.ret_addr ≠ g.ret_addr
  bounded : out.length ≤ max_frames.toNat
  ended : rdr.link next = none ∨ links.length = (max_frames * 4 + 32).toNat ∨ out.length ≥ max_frames.toNat

theorem push_length (hroom : out.length < max_frames.toNat) : (push out f).length ≤ max_frames.toNat := by
  rw [push]
  split
  · rw [List.length_append, List.length_singleton]
    omega
  · omega

variable (eng rdr fp max_frames out) in
/-- The walk along the chain keeps the bound. -/
theorem walk_chain_length (guard : Nat) (seen : List UInt64) (hroom : out.length < max_frames.toNat) :
    (walk_chain eng rdr max_frames guard seen fp out).length ≤ max_frames.toNat := by
  induction guard generalizing seen fp out with
  | zero =>
    rw [walk_chain]
    omega
  | succ guard ih =>
    rw [walk_chain]
    split
    · omega
    · split
      · split
        · simp only
          split
          · exact push_length hroom
          · rename_i hstop
            simp only [not_or, Nat.not_le] at hstop
            exact ih _ _ _ hstop.2
        · omega
      · omega

variable (eng rdr rsp rbp max_frames) in
/-- Every walk is made of these parts. -/
theorem walk_stack_walked (rip : UInt64) :
    Nonempty (Walked eng rdr rsp rbp max_frames (walk_stack eng rdr rip rsp rbp max_frames)) := by
  rw [walk_stack]
  by_cases hzero : max_frames = 0
  · rw [if_pos hzero]
    exact ⟨[], [], rbp, [], by simp [chain_frames], by simp, .nil rbp, by simp, by simp, by simp, by simp [hzero]⟩
  · rw [if_neg hzero]
    have hpos : 0 < max_frames.toNat := by
      apply Nat.pos_of_ne_zero
      intro h
      exact hzero (UInt64.toNat_inj.mp (by simpa using h))
    have htop : (top_frame eng rdr rsp).length ≤ 1 := by
      obtain hnone | ⟨top, htop, _⟩ := top_frame_cases eng rdr rsp
      · simp [hnone]
      · simp [htop]
    by_cases hfull : (top_frame eng rdr rsp).length ≥ max_frames.toNat
    · simp only [if_pos hfull]
      exact ⟨top_frame eng rdr rsp, [], rbp, [], by simp [chain_frames], by simp, .nil rbp, by simp, by simp, by omega,
        Or.inr (Or.inr hfull)⟩
    · simp only [if_neg hfull]
      obtain ⟨links, next, hlinks, hwalk, hend⟩ := walk_chain_links eng rdr rbp max_frames (top_frame eng rdr rsp)
        (max_frames * 4 + 32).toNat [] (by simp)
      have hlen := walk_chain_length eng rdr rbp max_frames (top_frame eng rdr rsp)
        (max_frames * 4 + 32).toNat [] (by omega)
      rw [push_chain fun n hn => (hlinks.ascending.1 n hn).2] at hwalk
      rw [hwalk] at hend hlen ⊢
      split
      · obtain ⟨scans, heq, hscans, hdistinct, hbounded⟩ := scan_stack_adds eng rdr rsp
          ((top_frame eng rdr rsp ++ chain_frames eng rdr rsp links).map frame_t.ret_addr) scan_offsets hlen
        rw [heq]
        refine ⟨top_frame eng rdr rsp, links, next, scans, by simp, by simp, hlinks, hscans, hdistinct, hbounded, ?_⟩
        refine hend.imp_right fun h => h.imp_right fun h => ?_
        rw [List.length_append]
        omega
      · exact ⟨top_frame eng rdr rsp, links, next, [], by simp, by simp, hlinks, by simp, by simp, hlen, hend⟩

theorem chain_frames_map (eng : engine_t) (rdr : reader_t) (rsp : UInt64) (links : List link_t) :
    ∃ kept : List link_t, kept.Sublist links ∧ chain_frames eng rdr rsp links = kept.map (link_t.frame eng rdr) := by
  refine ⟨(links.filter (link_t.has_code eng rdr)).dropWhile fun n =>
    (top_frame eng rdr rsp).any fun top => top.ret_addr = n.ret_addr, ?_, by simp [chain_frames]⟩
  exact (List.dropWhile_sublist _).trans List.filter_sublist

/-- A frame is on the chain. -/
def frame_t.on_chain (f : frame_t) : Bool := !f.scanned && f.frame_ptr ≠ 0

/-- Of a walk, the frames on the chain are those of the links. -/
theorem Walked.filter_on_chain (w : Walked eng rdr rsp rbp max_frames out) :
    out.filter frame_t.on_chain = chain_frames eng rdr rsp w.links := by
  have htop : w.top.filter frame_t.on_chain = [] := by
    rw [List.filter_eq_nil_iff]
    intro f hf
    obtain hnil | htop := w.from_rsp
    · simp [hnil] at hf
    · rw [htop] at hf
      obtain hnone | ⟨top, heq, hzero, _⟩ := top_frame_cases eng rdr rsp
      · simp [hnone] at hf
      · rw [heq] at hf
        obtain rfl := List.mem_singleton.mp hf
        simp [frame_t.on_chain, hzero]
  have hscans : w.scans.filter frame_t.on_chain = [] := by
    rw [List.filter_eq_nil_iff]
    intro f hf
    simp [frame_t.on_chain, (w.marked f hf).1]
  have hchain : (chain_frames eng rdr rsp w.links).filter frame_t.on_chain = chain_frames eng rdr rsp w.links := by
    obtain ⟨kept, hsub, heq⟩ := chain_frames_map eng rdr rsp w.links
    rw [heq, List.filter_eq_self]
    intro f hf
    obtain ⟨n, hn, rfl⟩ := List.mem_map.mp hf
    simpa [frame_t.on_chain] using (w.along.ascending.1 n (hsub.mem hn)).2
  nth_rewrite 1 [w.eq]
  rw [List.filter_append, List.filter_append, htop, hscans, hchain, List.nil_append, List.append_nil]

theorem Walked.not_scanned (w : Walked eng rdr rsp rbp max_frames out) :
    ∀ f ∈ w.top ++ chain_frames eng rdr rsp w.links, f.scanned = false := by
  intro f hf
  obtain hf | hf := List.mem_append.mp hf
  · obtain hnil | htop := w.from_rsp
    · simp [hnil] at hf
    · rw [htop] at hf
      obtain hnone | ⟨top, heq, _, hscanned⟩ := top_frame_cases eng rdr rsp
      · simp [hnone] at hf
      · rw [heq] at hf
        rw [List.mem_singleton.mp hf]
        exact hscanned
  · obtain ⟨kept, _, heq⟩ := chain_frames_map eng rdr rsp w.links
    rw [heq] at hf
    obtain ⟨n, _, rfl⟩ := List.mem_map.mp hf
    exact frame_scanned n

/-- The frame pointers that are not 0 go up. -/
theorem Walked.frame_ptrs (w : Walked eng rdr rsp rbp max_frames out) :
    ((out.map frame_t.frame_ptr).filter (· ≠ 0)).Pairwise (· < ·) := by
  have hscanned : ∀ f ∈ out, f.frame_ptr ≠ 0 → f.scanned = false := by
    intro f hf hne
    rw [w.eq, ← List.append_assoc] at hf
    obtain hf | hf := List.mem_append.mp hf
    · exact w.not_scanned f hf
    · exact absurd (w.marked f hf).2.1 hne
  have hfilter : (out.map frame_t.frame_ptr).filter (· ≠ 0) = (out.filter frame_t.on_chain).map frame_t.frame_ptr := by
    rw [List.filter_map]
    congr 1
    apply List.filter_congr
    intro f hf
    by_cases hne : f.frame_ptr = 0
    · simp [frame_t.on_chain, hne]
    · simp [frame_t.on_chain, hne, hscanned f hf hne]
  obtain ⟨kept, hsub, heq⟩ := chain_frames_map eng rdr rsp w.links
  have hkept := w.along.ascending.2.sublist hsub
  rw [hfilter, w.filter_on_chain, heq, List.map_map, List.pairwise_map]
  simpa using hkept

/-- No scanned frame repeats a return address. -/
theorem Walked.no_repeats (w : Walked eng rdr rsp rbp max_frames out) :
    out.Pairwise fun f g => f.scanned = true ∨ g.scanned = true → f.ret_addr ≠ g.ret_addr := by
  have hplain := w.not_scanned
  rw [w.eq, ← List.append_assoc, List.pairwise_append]
  refine ⟨?_, ?_, ?_⟩
  · apply List.pairwise_of_forall_mem_list
    intro f hf g hg hscanned
    simp [hplain f hf, hplain g hg] at hscanned
  · apply w.distinct.imp
    intro f g hne _
    exact hne
  · intro f hf g hg _
    exact (w.marked g hg).2.2 f hf

/-- An entry of the exception list leads to the next one. -/
def seh_entry_t.leads (rdr : reader_t) (e e' : seh_entry_t) : Prop := rdr.word e.frame = some e'.frame

/-- What the loop knows before a pass: the entries are distinct, each leads to the next one, and the last one to the
head. -/
structure SehLinked (rdr : reader_t) (start head : UInt64) (seen : List UInt64) (chain : List seh_entry_t) : Prop where
  seen : ∀ e ∈ chain, e.frame ∈ seen
  nodup : (chain.map seh_entry_t.frame).Nodup
  linked : chain.IsChain (seh_entry_t.leads rdr)
  first : ∀ e ∈ chain.head?, e.frame = start
  empty : chain = [] → head = start
  last : ∀ e ∈ chain.getLast?, rdr.word e.frame = some head

theorem SehLinked.push {start head next : UInt64} {seen : List UInt64} {chain : List seh_entry_t} (handler : UInt64)
    (h : SehLinked rdr start head seen chain) (hnew : head ∉ seen) (hnext : rdr.word head = some next) :
    SehLinked rdr start next (head :: seen) (chain ++ [{ handler, frame := head }]) := by
  refine ⟨?_, ?_, ?_, ?_, by simp, ?_⟩
  · intro e he
    obtain he | he := List.mem_append.mp he
    · exact List.mem_cons_of_mem head (h.seen e he)
    · rw [List.mem_singleton.mp he]
      exact List.mem_cons_self
  · rw [List.map_append, List.nodup_append]
    refine ⟨h.nodup, by simp, ?_⟩
    intro a ha b hb
    obtain ⟨e, he, rfl⟩ := List.mem_map.mp ha
    obtain rfl : b = head := by simpa using hb
    rintro rfl
    exact hnew (h.seen e he)
  · rw [List.isChain_append]
    refine ⟨h.linked, by simp, ?_⟩
    intro e he e' he'
    obtain rfl : { handler, frame := head } = e' := by simpa using he'
    exact h.last e he
  · intro e he
    cases chain with
    | nil =>
      obtain rfl : { handler, frame := head } = e := by simpa using he
      exact h.empty (by simp)
    | cons e' chain => exact h.first e (by simpa using he)
  · intro e he
    obtain rfl : { handler, frame := head } = e := by simpa using he
    exact hnext

/-- What the loop gives: at most 32 entries that are linked as before. -/
def SehResult (rdr : reader_t) (start : UInt64) (chain : List seh_entry_t) : Prop :=
  chain.length ≤ 32 ∧ (chain.map seh_entry_t.frame).Nodup ∧ chain.IsChain (seh_entry_t.leads rdr) ∧
    ∀ e ∈ chain.head?, e.frame = start

theorem SehLinked.result {start head : UInt64} {seen : List UInt64} {chain : List seh_entry_t}
    (h : SehLinked rdr start head seen chain) (hlen : chain.length ≤ 32) : SehResult rdr start chain :=
  ⟨hlen, h.nodup, h.linked, h.first⟩

/-- With 32 passes for the entries to come the loop ends. -/
theorem seh_loop_ends {start head : UInt64} {seen : List UInt64} {res : seh_result_t} (passes : Nat)
    (h : SehLinked rdr start head seen res.chain) (hlen : res.chain.length < 32) (hpasses : 32 ≤ res.chain.length + passes) :
    ∃ out, seh_loop rdr passes head seen res = some out ∧ SehResult rdr start out.2.chain := by
  induction passes generalizing head seen res with
  | zero => omega
  | succ passes ih =>
    have hresult := h.result (Nat.le_of_lt hlen)
    rw [seh_loop]
    split
    · exact ⟨_, rfl, hresult⟩
    · split
      · exact ⟨_, rfl, hresult⟩
      · rename_i hnew
        split
        · rename_i next handler hnext _
          have hpush := h.push handler (not_or.mp hnew).2 hnext
          simp only
          split
          · refine ⟨_, rfl, hpush.result ?_⟩
            rw [List.length_append, List.length_singleton]
            omega
          · rename_i hroom
            simp only [List.length_append, List.length_singleton] at hroom
            apply ih hpush
            · simp only [List.length_append, List.length_singleton]
              omega
            · simp only [List.length_append, List.length_singleton]
              omega
        · exact ⟨_, rfl, hresult⟩

/-- More passes make no difference. -/
theorem seh_loop_mono {head : UInt64} {seen : List UInt64} {res : seh_result_t} {result : UInt64 × seh_result_t}
    {passes : Nat} (hloop : seh_loop rdr passes head seen res = some result) (more : Nat) :
    seh_loop rdr (passes + more) head seen res = some result := by
  induction passes generalizing head seen res with
  | zero => cases hloop
  | succ passes ih =>
    rw [Nat.succ_add, seh_loop]
    rw [seh_loop] at hloop
    split at hloop
    · rename_i hend
      rw [if_pos hend]
      exact hloop
    · rename_i hend
      rw [if_neg hend]
      split at hloop
      · rename_i hbad
        rw [if_pos hbad]
        exact hloop
      · rename_i hbad
        rw [if_neg hbad]
        cases hnext : rdr.word head with
        | none => simpa [hnext] using hloop
        | some next =>
          cases hhandler : rdr.word (head + 8) with
          | none => simpa [hnext, hhandler] using hloop
          | some handler =>
            simp only [hnext, hhandler] at hloop ⊢
            split at hloop
            · rename_i hfull
              rw [if_pos hfull]
              exact hloop
            · rename_i hroom
              rw [if_neg hroom]
              exact ih hloop

/-- The exception list is walked to an end, for every content of the memory. -/
theorem seh_chain_ends (rdr : reader_t) (teb_addr : UInt64) :
    ∃ res, (∀ passes ≥ 32, seh_chain rdr passes teb_addr = some res) ∧ res.chain.length ≤ 32 ∧
      (res.chain.map seh_entry_t.frame).Nodup ∧ res.chain.IsChain (seh_entry_t.leads rdr) ∧
      ∀ e ∈ res.chain.head?, rdr.word teb_addr = some e.frame := by
  by_cases hteb : teb_addr = 0
  · exact ⟨{ note := "no TEB address available" }, by simp [seh_chain, hteb], by simp, by simp, by simp, by simp⟩
  · cases hhead : rdr.word teb_addr with
    | none => exact ⟨{ note := "TEB read failed" }, by simp [seh_chain, hteb, hhead], by simp, by simp, by simp, by simp⟩
    | some head =>
      have hstart : SehLinked rdr head head [] ({} : seh_result_t).chain := ⟨by simp, by simp, by simp, by simp, by simp, by simp⟩
      obtain ⟨⟨last, res⟩, hloop, hlen, hnodup, hlinked, hfirst⟩ := seh_loop_ends 32 hstart (by simp) (by simp)
      refine ⟨if last = kSentinel then { res with chain_empty_proven := res.chain.isEmpty } else res, ?_, ?_⟩
      · intro passes hpasses
        obtain ⟨more, rfl⟩ := Nat.exists_eq_add_of_le hpasses
        simp [seh_chain, hteb, hhead, seh_loop_mono hloop more]
      · have hchain : (if last = kSentinel then { res with chain_empty_proven := res.chain.isEmpty } else res).chain =
            res.chain := by
          split <;> simp
        rw [hchain]
        refine ⟨hlen, hnodup, hlinked, ?_⟩
        intro e he
        rw [hfirst e he]

/-- Both walks end within their bounds for every content of the memory. The frames on the chain are those with code
along a part of the chain, but for the ones in front that repeat the return address of frame 0; that part ends where
the chain does, or at a bound. -/
theorem stack_and_seh_walks (eng : engine_t) (rdr : reader_t) (rip rsp rbp max_frames teb_addr : UInt64) :
    let out := walk_stack eng rdr rip rsp rbp max_frames
    out.length ≤ max_frames.toNat ∧ ((out.map frame_t.frame_ptr).filter (· ≠ 0)).Pairwise (· < ·) ∧
      (∃ links next, Links rdr rbp links next ∧
        (rdr.link next = none ∨ links.length = (max_frames * 4 + 32).toNat ∨ out.length ≥ max_frames.toNat) ∧
        out.filter frame_t.on_chain = chain_frames eng rdr rsp links) ∧
      (out.Pairwise fun f g => f.scanned = true ∨ g.scanned = true → f.ret_addr ≠ g.ret_addr) ∧
      ∃ res, (∀ passes ≥ 32, seh_chain rdr passes teb_addr = some res) ∧ res.chain.length ≤ 32 ∧
        (res.chain.map seh_entry_t.frame).Nodup ∧ res.chain.IsChain (seh_entry_t.leads rdr) ∧
        ∀ e ∈ res.chain.head?, rdr.word teb_addr = some e.frame := by
  intro out
  obtain ⟨w⟩ := walk_stack_walked eng rdr rsp rbp max_frames rip
  exact ⟨w.bounded, w.frame_ptrs, ⟨w.links, w.next, w.along, w.ended, w.filter_on_chain⟩, w.no_repeats,
    seh_chain_ends rdr teb_addr⟩

/-- A stack whose first frame on the chain returns to where the top of the stack says, and an instruction
everywhere else. -/
def stack_sample : reader_t where
  read addr len :=
    if addr = 0x1000 ∨ addr = 0x2008 then some (Bytes.le len 0x400000)
    else if addr = 0x2000 then some (Bytes.le len 0x3000)
    else if addr = 0x3000 then some (Bytes.le len 0)
    else if addr = 0x3008 then some (Bytes.le len 0x500000)
    else if addr ≥ 0x400000 then some (Bytes.le len 0x90)
    else none

def nop_engine : engine_t where
  decode va _ := some { va, length := 1, text := "nop" }

/-- The frames on the chain are then not those with code along some part of it. -/
theorem repeated_top_skipped :
    ¬ ∃ links next, Links stack_sample 0x2000 links next ∧
      (walk_stack nop_engine stack_sample 0x400000 0x1000 0x2000 32).filter frame_t.on_chain =
        (links.filter (link_t.has_code nop_engine stack_sample)).map (link_t.frame nop_engine stack_sample) := by
  have hwalk : (walk_stack nop_engine stack_sample 0x400000 0x1000 0x2000 32).filter frame_t.on_chain =
      [{ ret_addr := 0x500000, frame_ptr := 0x3000, snippet := "nop" }] := by decide +kernel
  intro ⟨links, next, hlinks, heq⟩
  rw [hwalk] at heq
  cases hlinks with
  | nil => simp at heq
  | @cons _ saved ret _ links hlink hrest =>
    obtain ⟨_, _, _, hret, _⟩ := link_cases hlink
    have hret' : stack_sample.word (0x2000 + 8) = some 0x400000 := by decide +kernel
    obtain rfl := Option.some.inj (hret.symm.trans hret')
    have hcode : link_t.has_code nop_engine stack_sample ⟨0x2000, 0x400000⟩ = true := by decide +kernel
    rw [List.filter_cons_of_pos hcode, List.map_cons] at heq
    have hhead := congrArg frame_t.frame_ptr (List.cons.inj heq).1
    simp at hhead

end

end slop.core.debugger.unwind
