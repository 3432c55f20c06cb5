import ReverseSlop.Core.Mcp.Siggen
import ReverseSlop.Core.Memory.Aob.HoleLaw
import ReverseSlop.Core.Memory.Memscan.Config

namespace slop.core

open infra
open memory (scan_region_t memory_t aob_exec_t aob_pattern_t aob_scan aob_compile aob_match filter_regions has_flag
  user_space_end raw_seen span_seen Served kPageGuard)

namespace runtime

def MEM_COMMIT : BitVec 32 := 0x1000

structure region_info_t extends scan_region_t where
  state : BitVec 32 := 0

/-- The regions to scan, of those that the backend lists up to its cap. -/
def target_scan_regions (items : List region_info_t) : List scan_region_t :=
  (items.take limits.max_regions_enumerated).filterMap fun r =>
    if has_flag r.state MEM_COMMIT = false ∨ r.size = 0 then none
    else if has_flag r.protect kPageGuard then none
    else some r.toscan_region_t

end runtime

namespace mcp

open disasm (engine_t)
open runtime (region_info_t target_scan_regions)

def kSpanCap : Nat := 512 <<< 20

/-- A region is dropped from `hi` on. -/
def cut_region (hi : Nat) (reg : scan_region_t) : Option scan_region_t :=
  if reg.base ≥ hi then none
  else if hsize : reg.base + reg.size > hi then
    some { reg with size := hi - reg.base, in_user_space := by have := reg.in_user_space; omega }
  else some reg

/-- The search stops `kSpanCap` above the first region, if the last one ends further on, or below it. -/
def clip_span (regions : List scan_region_t) : List scan_region_t :=
  match regions.head?, regions.getLast? with
  | some front, some back =>
    let lo := front.base
    let hi := back.base + back.size
    if Word.sub64 hi lo > kSpanCap then regions.filterMap (cut_region (lo + kSpanCap)) else regions
  | _, _ => regions

/-- The matches counted for a signature; `none` is undefined behaviour of the scan. -/
def count_occurrences (exec : aob_exec_t) (regions : List scan_region_t) (pat : List UInt8) : Option Nat :=
  if regions.isEmpty then some 0
  else
    match aob_compile pat with
    | .error _ => some 0
    | .ok p => (aob_scan exec (clip_span regions) p {}).map fun res => res.addresses.length

structure siggen_answer_t where
  addr : UInt64
  pattern : List UInt8
  mask : List UInt8
  length : Nat
  instructions : Nat
  unique : Bool
  occurrences : Nat

/-- The regions that `siggen` searches before it cuts them. -/
def siggen_regions (items : List region_info_t) : List scan_region_t := filter_regions {} (target_scan_regions items)

def memory_siggen (eng : engine_t) (mem : memory_t) (exec : aob_exec_t) (items : List region_info_t) (addr : UInt64)
    (len : Nat) : Option (Except String siggen_answer_t) :=
  if len = 0 ∨ len > 256 then some (.error "siggen len must be 1..256")
  else
    match mem.read addr.toNat len with
    | none => some (.error "cannot read signature region")
    | some buf =>
      match siggen eng addr buf with
      | .error e => some (.error e)
      | .ok out =>
        (count_occurrences exec (siggen_regions items) out.pat).map fun hits_total =>
          .ok
            { addr, pattern := out.pat, mask := out.mask, length := out.off, instructions := out.insns
              unique := hits_total = 1, occurrences := hits_total }

/-- The pattern of the code at an address. -/
def IsSignature (eng : engine_t) (mem : memory_t) (addr : UInt64) (len : Nat) (p : aob_pattern_t) : Prop :=
  0 < len ∧ len ≤ 256 ∧ ∃ buf out, mem.read addr.toNat len = some buf ∧ siggen eng addr buf = .ok out ∧
    aob_compile out.pat = .ok p

/-- The match is inside the part of the regions that is searched, and no hole hides it. -/
def Shown (mem : memory_t) (regions : List scan_region_t) (p : aob_pattern_t) (a : Nat) : Prop :=
  ∃ reg ∈ clip_span regions, p.Found mem reg a ∧ Served {} p mem reg a

/-- A unique signature matches in the regions at the address that it was made for, and nowhere else. -/
def UniqueSound (mem : memory_t) (regions : List scan_region_t) (addr : UInt64) (answer : siggen_answer_t) : Prop :=
  answer.unique = true → ∀ p, aob_compile answer.pattern = .ok p →
    ∀ a, (∃ reg ∈ regions, p.Found mem reg a) ↔ a = addr.toNat

section

variable {eng : engine_t} {mem : memory_t} {exec : aob_exec_t} {items : List region_info_t} {addr : UInt64} {len a : Nat}
  {regions : List scan_region_t} {p : aob_pattern_t}

theorem cut_region_inside {hi : Nat} {reg reg' : scan_region_t} (hcut : cut_region hi reg = some reg') :
    reg'.base = reg.base ∧ reg'.base + reg'.size ≤ reg.base + reg.size := by
  unfold cut_region at hcut
  split at hcut
  · cases hcut
  split at hcut
  · cases hcut
    refine ⟨rfl, ?_⟩
    dsimp only
    omega
  · cases hcut
    exact ⟨rfl, le_rfl⟩

/-- What is searched lies inside the regions. -/
theorem clip_span_inside {reg' : scan_region_t} (hreg : reg' ∈ clip_span regions) :
    ∃ reg ∈ regions, reg'.base = reg.base ∧ reg'.base + reg'.size ≤ reg.base + reg.size := by
  unfold clip_span at hreg
  split at hreg
  · dsimp only at hreg
    split at hreg
    · obtain ⟨reg, hmem, hcut⟩ := List.mem_filterMap.mp hreg
      exact ⟨reg, hmem, cut_region_inside hcut⟩
    · exact ⟨reg', hreg, rfl, le_rfl⟩
  · exact ⟨reg', hreg, rfl, le_rfl⟩

theorem clip_span_of_far {front back : scan_region_t} (hfront : regions.head? = some front) (hback : regions.getLast? = some back)
    (hfar : Word.sub64 (back.base + back.size) front.base > kSpanCap) :
    clip_span regions = regions.filterMap (cut_region (front.base + kSpanCap)) := by
  unfold clip_span
  rw [hfront, hback]
  exact if_pos hfar

theorem length_clip_span_le (regions : List scan_region_t) : (clip_span regions).length ≤ regions.length := by
  unfold clip_span
  split
  · dsimp only
    split
    · exact List.length_filterMap_le _ _
    · exact le_rfl
  · exact le_rfl

theorem length_siggen_regions_le (items : List region_info_t) :
    (siggen_regions items).length ≤ limits.max_regions_enumerated :=
  calc (siggen_regions items).length
      ≤ (target_scan_regions items).length := List.length_filterMap_le _ _
    _ ≤ (items.take limits.max_regions_enumerated).length := List.length_filterMap_le _ _
    _ ≤ limits.max_regions_enumerated := List.length_take_le _ _

theorem Shown.found (hshown : Shown mem regions p a) : ∃ reg ∈ regions, p.Found mem reg a := by
  obtain ⟨reg', hreg', ⟨⟨hlo, hhi⟩, hreadable, hmatch⟩, -⟩ := hshown
  obtain ⟨reg, hreg, hbase, hend⟩ := clip_span_inside hreg'
  exact ⟨reg, hreg, ⟨hbase ▸ hlo, hhi.trans hend⟩, hreadable, hmatch⟩

/-- The count is one exactly if one match is shown: there are fewer regions than the result has room. -/
theorem count_occurrences_one {pat : List UInt8} (hsteady : exec.Steady mem) (hcompile : aob_compile pat = .ok p)
    (hsize : p.size ≤ 256) (hregions : regions.length ≤ limits.max_regions_enumerated) :
    ∃ hits, count_occurrences exec regions pat = some hits ∧ (hits = 1 ↔ ∃! a, Shown mem regions p a) := by
  have hchunk : p.size ≤ ({} : memory.aob_scan_options_t).chunk := by
    refine hsize.trans ?_
    decide
  have hroom : (clip_span regions).length < ({} : memory.aob_scan_options_t).result_cap :=
    calc (clip_span regions).length
        ≤ limits.max_regions_enumerated := (length_clip_span_le regions).trans hregions
      _ < ({} : memory.aob_scan_options_t).result_cap := by decide
  unfold count_occurrences
  split
  · rename_i hempty
    refine ⟨0, rfl, iff_of_false Nat.zero_ne_one ?_⟩
    rintro ⟨a, ⟨reg, hreg, -⟩, -⟩
    obtain ⟨reg', hreg', -⟩ := clip_span_inside hreg
    rw [List.isEmpty_iff.mp hempty] at hreg'
    cases hreg'
  · obtain ⟨res, hscan, hone⟩ := memory.aob_scan_one hsteady rfl hchunk hroom
    rw [hcompile]
    dsimp only
    rw [hscan]
    exact ⟨_, rfl, hone⟩

theorem IsSignature.matches (hinside : StaysInside eng) (hsignature : IsSignature eng mem addr len p) :
    p.size ≤ len ∧ (⟨addr.toNat, p.size⟩ : memory.detail.seg_t).Readable mem ∧ p.MatchesAt mem addr.toNat := by
  obtain ⟨-, -, buf, out, hread, hsiggen, hcompile⟩ := hsignature
  obtain ⟨hreadable, hbuf⟩ := (memory.detail.read_eq_some_iff mem addr.toNat len).mp hread
  obtain ⟨p', hcompile', hsize, hmatch⟩ := siggen_matches hinside hsiggen
  obtain rfl : p' = p := Except.ok.inj (hcompile'.symm.trans hcompile)
  rw [mem.read_length hread] at hsize
  refine ⟨hsize, fun x hlo hhi => hreadable x hlo (hhi.trans_le (Nat.add_le_add_left hsize _)), ?_⟩
  have hdrop : aob_match p' ((mem.bytes_at addr.toNat len).drop 0) = true ↔ _ :=
    memory.aob_match_drop_bytes_at p' mem (by omega)
  exact hdrop.mp (hbuf ▸ hmatch)

theorem memory_siggen_eq_ok {answer : siggen_answer_t} :
    memory_siggen eng mem exec items addr len = some (.ok answer) ↔
      ∃ buf out hits, (0 < len ∧ len ≤ 256) ∧ mem.read addr.toNat len = some buf ∧ siggen eng addr buf = .ok out ∧
        count_occurrences exec (siggen_regions items) out.pat = some hits ∧
        answer = ⟨addr, out.pat, out.mask, out.off, out.insns, hits = 1, hits⟩ := by
  unfold memory_siggen
  constructor
  · intro hok
    split at hok
    · cases hok
    rename_i hlen
    split at hok
    · cases hok
    rename_i buf hread
    split at hok
    · cases hok
    rename_i out hsiggen
    obtain ⟨hits, hcount, hanswer⟩ := Option.map_eq_some_iff.mp hok
    cases hanswer
    exact ⟨buf, out, hits, by omega, hread, hsiggen, hcount, rfl⟩
  · rintro ⟨buf, out, hits, hlen, hread, hsiggen, hcount, rfl⟩
    rw [if_neg (by omega), hread]
    dsimp only
    rw [hsiggen]
    dsimp only
    rw [hcount]
    rfl

/-- On a target that stands still the answer is always defined. -/
theorem memory_siggen_isSome (hinside : StaysInside eng) (hsteady : exec.Steady mem) :
    (memory_siggen eng mem exec items addr len).isSome := by
  unfold memory_siggen
  split
  · rfl
  rename_i hlen
  split
  · rfl
  rename_i buf hread
  split
  · rfl
  rename_i out hsiggen
  obtain ⟨p, hcompile, hsize, -⟩ := siggen_matches hinside hsiggen
  have hbuf := mem.read_length hread
  obtain ⟨hits, hcount, -⟩ := count_occurrences_one hsteady hcompile (by omega) (length_siggen_regions_le items)
  rw [hcount]
  rfl

/-- A unique match that is shown is the signature's own code, if no match is hidden and that code is in a region. -/
theorem unique_iff (hinside : StaysInside eng) (hsignature : IsSignature eng mem addr len p)
    (hone : ∃! a, Shown mem regions p a) :
    (∀ a, (∃ reg ∈ regions, p.Found mem reg a) ↔ a = addr.toNat) ↔
      (∀ a, (∃ reg ∈ regions, p.Found mem reg a) → Shown mem regions p a) ∧ ∃ reg ∈ regions, reg.Holds addr.toNat p.size := by
  obtain ⟨-, hreadable, hmatch⟩ := hsignature.matches hinside
  obtain ⟨shown, hshown, hall⟩ := hone
  constructor
  · intro hfound
    have haddr := (hfound shown).mp (Shown.found hshown)
    refine ⟨fun a ha => ?_, ?_⟩
    · rw [(hfound a).mp ha, ← haddr]
      exact hshown
    · obtain ⟨reg, hreg, hholds, -⟩ := (hfound addr.toNat).mpr rfl
      exact ⟨reg, hreg, hholds⟩
  · rintro ⟨hhidden, reg, hreg, hholds⟩ a
    have hown : ∃ reg ∈ regions, p.Found mem reg addr.toNat := ⟨reg, hreg, hholds, hreadable, hmatch⟩
    constructor
    · intro ha
      rw [hall a (hhidden a ha), hall _ (hhidden _ hown)]
    · rintro rfl
      exact hown

end

/-- `unique = true` can be relied on exactly if one match shown has no other match hidden from it, by the cut or
by a hole, and the signature's own code is in a region. -/
theorem siggen_unique_iff (eng : engine_t) (hinside : StaysInside eng) (mem : memory_t) (exec : aob_exec_t)
    (hsteady : exec.Steady mem) (items : List region_info_t) (addr : UInt64) (len : Nat) :
    (∀ answer, memory_siggen eng mem exec items addr len = some (.ok answer) →
        UniqueSound mem (siggen_regions items) addr answer) ↔
      ∀ p, IsSignature eng mem addr len p → (∃! a, Shown mem (siggen_regions items) p a) →
        (∀ a, (∃ reg ∈ siggen_regions items, p.Found mem reg a) → Shown mem (siggen_regions items) p a) ∧
          ∃ reg ∈ siggen_regions items, reg.Holds addr.toNat p.size := by
  have hregions := length_siggen_regions_le items
  constructor
  · intro hsound p hsignature hone
    obtain ⟨hpos, hlen, buf, out, hread, hsiggen, hcompile⟩ := id hsignature
    obtain ⟨hits, hcount, hiff⟩ := count_occurrences_one hsteady hcompile
      ((hsignature.matches hinside).1.trans hlen) hregions
    have hanswer := memory_siggen_eq_ok.mpr ⟨buf, out, hits, ⟨hpos, hlen⟩, hread, hsiggen, hcount, rfl⟩
    exact (unique_iff hinside hsignature hone).mp (hsound _ hanswer (decide_eq_true (hiff.mpr hone)) p hcompile)
  · intro hcond answer hok hunique p hcompile
    obtain ⟨buf, out, hits, ⟨hpos, hlen⟩, hread, hsiggen, hcount, rfl⟩ := memory_siggen_eq_ok.mp hok
    have hsignature : IsSignature eng mem addr len p := ⟨hpos, hlen, buf, out, hread, hsiggen, hcompile⟩
    obtain ⟨hits', hcount', hiff⟩ := count_occurrences_one hsteady hcompile
      ((hsignature.matches hinside).1.trans hlen) hregions
    obtain rfl : hits' = hits := Option.some.inj (hcount'.symm.trans hcount)
    have hone := hiff.mp (of_decide_eq_true hunique)
    exact (unique_iff hinside hsignature hone).mpr (hcond p hsignature hone)

/-- A page of private code. -/
def near_code : region_info_t := ⟨⟨0x400000, 0x1000, 0x20, 0x20000, by decide⟩, runtime.MEM_COMMIT⟩

/-- The page behind it. -/
def next_code : region_info_t := ⟨⟨0x401000, 0x1000, 0x20, 0x20000, by decide⟩, runtime.MEM_COMMIT⟩

def far_code : region_info_t := ⟨⟨0x40400000, 0x1000, 0x20, 0x20000, by decide⟩, runtime.MEM_COMMIT⟩

/-- Two functions that are one `ret` each, more than 512 MiB apart. -/
def far_memory : memory_t := fun a => some (if a = 0x400000 ∨ a = 0x40400000 then 0xC3 else 0)

/-- `C3`. -/
def ret_pattern : aob_pattern_t := ⟨[0xC3], [0xFF], rfl, by decide⟩

theorem far_memory_readable (regions : List scan_region_t) : far_memory.Readable regions := fun _ _ _ _ _ => rfl

theorem matchesAt_ret_pattern (mem : memory_t) (a : Nat) : ret_pattern.MatchesAt mem a ↔ mem.peek a = 0xC3 := by
  change aob_match ret_pattern [mem.peek a] = true ↔ _
  simp only [aob_match, ret_pattern, aob_pattern_t.size]
  simp [show (0xFF : UInt8) = -1 from rfl]

theorem siggen_ret (addr : UInt64) :
    siggen ⟨sample_decode⟩ addr [0xC3] = .ok ⟨Numeral.ascii "C3", Numeral.ascii "x", 1, 1⟩ := by
  rw [siggen_eq]
  simp [decoded, sample_decode, sign_cells, sign_cell, wild, is_branch]
  decide +kernel

/-- Where the search ends below the second `ret`, the first one is the only match shown. -/
theorem shown_near_iff {regions : List scan_region_t} (hnear : near_code.toscan_region_t ∈ clip_span regions)
    (hbelow : ∀ reg ∈ clip_span regions, reg.base + reg.size ≤ 0x40400000) (a : Nat) :
    Shown far_memory regions ret_pattern a ↔ a = 0x400000 := by
  constructor
  · rintro ⟨reg, hreg, ⟨⟨-, hhi⟩, -, hmatch⟩, -⟩
    change a + 1 ≤ reg.base + reg.size at hhi
    have hend := hbelow reg hreg
    by_contra hother
    have hbyte : far_memory.peek a = if a = 0x400000 ∨ a = 0x40400000 then 0xC3 else 0 := rfl
    rw [(matchesAt_ret_pattern far_memory a).mp hmatch, if_neg (by omega)] at hbyte
    cases hbyte
  · rintro rfl
    have hfound : ret_pattern.Found far_memory near_code.toscan_region_t 0x400000 :=
      ⟨by decide, fun _ _ _ => rfl, (matchesAt_ret_pattern far_memory _).mpr rfl⟩
    exact ⟨_, hnear, hfound, memory.served_of_readable rfl (by decide) (far_memory_readable _) hfound⟩

/-- The signature of a `ret` is unique where the search ends below the second one. -/
theorem ret_signature_unique {items : List region_info_t} {addr : UInt64} (hread : far_memory.read addr.toNat 1 = some [0xC3])
    (hnear : near_code.toscan_region_t ∈ clip_span (siggen_regions items))
    (hbelow : ∀ reg ∈ clip_span (siggen_regions items), reg.base + reg.size ≤ 0x40400000) :
    ∃ answer, memory_siggen ⟨sample_decode⟩ far_memory (.single far_memory) items addr 1 = some (.ok answer) ∧
      answer.unique = true ∧ aob_compile answer.pattern = .ok ret_pattern := by
  have hcompile : aob_compile (Numeral.ascii "C3") = .ok ret_pattern := rfl
  obtain ⟨hits, hcount, hiff⟩ := count_occurrences_one (memory.aob_exec_t.single_steady far_memory) hcompile (by decide)
    (length_siggen_regions_le items)
  have hone : ∃! a, Shown far_memory (siggen_regions items) ret_pattern a :=
    ⟨0x400000, (shown_near_iff hnear hbelow _).mpr rfl, fun a ha => (shown_near_iff hnear hbelow a).mp ha⟩
  exact ⟨_, memory_siggen_eq_ok.mpr ⟨_, _, hits, by decide, hread, siggen_ret addr, hcount, rfl⟩,
    decide_eq_true (hiff.mpr hone), hcompile⟩

/-- With two regions in sight, the signature of the `ret` of the first is unique and sound. -/
theorem siggen_unique_near :
    ∃ answer, memory_siggen ⟨sample_decode⟩ far_memory (.single far_memory) [near_code, next_code] 0x400000 1 =
        some (.ok answer) ∧
      answer.unique = true ∧ UniqueSound far_memory (siggen_regions [near_code, next_code]) 0x400000 answer := by
  have hregions : siggen_regions [near_code, next_code] = [near_code.toscan_region_t, next_code.toscan_region_t] := rfl
  have hclip : clip_span (siggen_regions [near_code, next_code]) = siggen_regions [near_code, next_code] := rfl
  have hread : far_memory.read (0x400000 : UInt64).toNat 1 = some [0xC3] := by decide
  obtain ⟨answer, hanswer, hunique, -⟩ := ret_signature_unique hread (hclip ▸ hregions ▸ List.mem_cons_self)
    (by rw [hclip, hregions]; decide)
  refine ⟨answer, hanswer, hunique, ?_⟩
  apply (siggen_unique_iff ⟨sample_decode⟩ sample_decodes.inside far_memory (.single far_memory)
    (memory.aob_exec_t.single_steady far_memory) [near_code, next_code] 0x400000 1).mpr ?_ answer hanswer
  intro p hsignature _
  have hsize := (hsignature.matches sample_decodes.inside).1
  have hchunk : p.size ≤ ({} : memory.aob_scan_options_t).chunk := hsize.trans (by decide)
  refine ⟨?_, ?_⟩
  · rintro a ⟨reg, hreg, hfound⟩
    exact ⟨reg, hclip.symm ▸ hreg, hfound, memory.served_of_readable rfl hchunk (far_memory_readable _) hfound⟩
  · refine ⟨_, hregions ▸ List.mem_cons_self, le_rfl, ?_⟩
    change 0x400000 + p.size ≤ 0x400000 + 0x1000
    omega

/-- The signature of the second `ret`: the search ends below it, and the first one is the only match shown. -/
theorem far_signature_unique :
    ∃ answer, memory_siggen ⟨sample_decode⟩ far_memory (.single far_memory) [near_code, far_code] 0x40400000 1 =
        some (.ok answer) ∧
      answer.unique = true ∧ ¬ UniqueSound far_memory (siggen_regions [near_code, far_code]) 0x40400000 answer := by
  have hregions : siggen_regions [near_code, far_code] = [near_code.toscan_region_t, far_code.toscan_region_t] := rfl
  have hclip : clip_span (siggen_regions [near_code, far_code]) = [near_code.toscan_region_t] := by
    have hfar : clip_span [near_code.toscan_region_t, far_code.toscan_region_t] = _ := clip_span_of_far rfl rfl (by decide)
    rw [hregions, hfar, List.filterMap_cons_some, List.filterMap_cons_none]
    · rfl
    · exact if_pos (by decide)
    · exact (if_neg (by decide)).trans (dif_neg (by decide))
  have hread : far_memory.read (0x40400000 : UInt64).toNat 1 = some [0xC3] := by decide
  have hnear : near_code.toscan_region_t ∈ clip_span (siggen_regions [near_code, far_code]) := by simp [hclip]
  have hbelow : ∀ reg ∈ clip_span (siggen_regions [near_code, far_code]), reg.base + reg.size ≤ 0x40400000 := by
    rw [hclip]
    decide
  obtain ⟨answer, hanswer, hunique, hcompile⟩ := ret_signature_unique hread hnear hbelow
  refine ⟨answer, hanswer, hunique, fun hsound => ?_⟩
  have hfirst := (hsound hunique ret_pattern hcompile 0x400000).mp (Shown.found ((shown_near_iff hnear hbelow _).mpr rfl))
  exact absurd hfirst (by decide)

end mcp

end slop.core
