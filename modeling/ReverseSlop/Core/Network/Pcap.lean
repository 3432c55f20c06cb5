import ReverseSlop.Core.Network.Streams
import ReverseSlop.Library.PcapFormat

namespace slop.core.network

open Bytes
open Numeral (ascii)

/-! The headers, with their fields as the processor lays them out. -/

structure eth_header_t where
  dst : List UInt8 := [0x02, 0, 0, 0, 0, 1]
  src : List UInt8 := [0x02, 0, 0, 0, 0, 2]
  ethertype : UInt16 := 0x0800

structure ipv4_header_t where
  ver_ihl : UInt8 := 0x45
  tos : UInt8 := 0
  total_len : UInt16 := 0
  id : UInt16 := 0
  flags_frag : UInt16 := 0x4000
  ttl : UInt8 := 64
  protocol : UInt8 := 6
  checksum : UInt16 := 0
  src : List UInt8 := [0, 0, 0, 0]
  dst : List UInt8 := [0, 0, 0, 0]

structure tcp_header_t where
  src_port : UInt16 := 0
  dst_port : UInt16 := 0
  seq : UInt32 := 0
  ack : UInt32 := 0
  data_off : UInt8 := 0x50
  flags : UInt8 := 0x18
  window : UInt16 := 0xFFFF
  csum : UInt16 := 0
  urg : UInt16 := 0

structure udp_header_t where
  src_port : UInt16 := 0
  dst_port : UInt16 := 0
  len : UInt16 := 0
  csum : UInt16 := 0

def le16 (v : UInt16) : List UInt8 := le 2 v.toNat

def le32 (v : UInt32) : List UInt8 := le 4 v.toNat

def eth_header_t.bytes (h : eth_header_t) : List UInt8 := h.dst ++ h.src ++ le16 h.ethertype

def ipv4_header_t.bytes (h : ipv4_header_t) : List UInt8 :=
  [h.ver_ihl, h.tos] ++ le16 h.total_len ++ le16 h.id ++ le16 h.flags_frag ++ [h.ttl, h.protocol] ++ le16 h.checksum ++
    h.src ++ h.dst

def tcp_header_t.bytes (h : tcp_header_t) : List UInt8 :=
  le16 h.src_port ++ le16 h.dst_port ++ le32 h.seq ++ le32 h.ack ++ [h.data_off, h.flags] ++ le16 h.window ++
    le16 h.csum ++ le16 h.urg

def udp_header_t.bytes (h : udp_header_t) : List UInt8 :=
  le16 h.src_port ++ le16 h.dst_port ++ le16 h.len ++ le16 h.csum

def host_to_net16 (v : UInt16) : UInt16 := (v <<< 8) ||| (v >>> 8)

/-- The numbers of `%u.%u.%u.%u`. -/
def scan_dotted (addr : List UInt8) : Option (Nat × Nat × Nat × Nat) := do
  let (a, s) ← Numeral.scan addr
  let (b, s) ← Numeral.scan (← after_dot s)
  let (c, s) ← Numeral.scan (← after_dot s)
  let (d, _) ← Numeral.scan (← after_dot s)
  some (a, b, c, d)
where
  after_dot : List UInt8 → Option (List UInt8)
    | 46 :: s => some s
    | _ => none

/-- The bytes of an IPv4 address, or zeros. -/
def ip_to_bytes (addr : List UInt8) : List UInt8 :=
  match scan_dotted addr with
  | some (a, b, c, d) =>
    if a < 256 ∧ b < 256 ∧ c < 256 ∧ d < 256 then [a.toUInt8, b.toUInt8, c.toUInt8, d.toUInt8] ++ List.replicate 12 0
    else List.replicate 16 0
  | none => List.replicate 16 0

section

variable (p : packet_record_t)

def packet_record_t.udp : Bool := p.protocol = kProtoUdp

def packet_record_t.l4_size : Nat := if p.udp then 8 else 20

def packet_record_t.sport : UInt16 := if p.direction = 0 then p.local_port else p.remote_port

def packet_record_t.dport : UInt16 := if p.direction = 0 then p.remote_port else p.local_port

def packet_record_t.ip : ipv4_header_t where
  protocol := if p.protocol = 0 then kProtoTcp.toUInt8 else p.protocol.toUInt8
  src := (ip_to_bytes p.local_addr).take 4
  dst := (ip_to_bytes p.remote_addr).take 4
  total_len := host_to_net16 (20 + p.l4_size + p.payload.length).toUInt16

def packet_record_t.l4 : List UInt8 :=
  if p.udp then
    udp_header_t.bytes
      { src_port := host_to_net16 p.sport, dst_port := host_to_net16 p.dport,
        len := host_to_net16 (8 + p.payload.length).toUInt16 }
  else tcp_header_t.bytes { src_port := host_to_net16 p.sport, dst_port := host_to_net16 p.dport }

/-- A payload with the headers that are made up for it. -/
def packet_record_t.frame : List UInt8 := eth_header_t.bytes {} ++ p.ip.bytes ++ p.l4 ++ p.payload

def packet_record_t.rec_hdr : List UInt8 :=
  le32 (p.at_ms / 1000).toUInt64.toUInt32 ++ le32 ((p.at_ms % 1000) * 1000).toUInt64.toUInt32 ++
    le32 p.frame.length.toUInt32 ++ le32 p.frame.length.toUInt32

end

def global_hdr : List UInt8 :=
  le32 0xa1b2c3d4 ++ le16 2 ++ le16 4 ++ le32 0 ++ le32 0 ++ le32 0x40000 ++ le32 1

/-- The contents of the file that is written. -/
def write_pcap (pkts : List packet_record_t) : List UInt8 :=
  global_hdr ++ pkts.flatMap fun p => p.rec_hdr ++ p.frame

/-- The text of an IPv4 address. -/
def dotted (addr : List UInt8) : List UInt8 :=
  match addr.map fun b => Numeral.print 10 b.toNat with
  | [a, b, c, d] => a ++ [46] ++ b ++ [46] ++ c ++ [46] ++ d
  | _ => []

/-- A packet of TCP or UDP between IPv4 addresses whose length fits the header. -/
structure Exportable (p : packet_record_t) : Prop where
  protocol : p.protocol = kProtoTcp ∨ p.protocol = kProtoUdp
  local_addr : ∃ addr, addr.length = 4 ∧ p.local_addr = dotted addr
  remote_addr : ∃ addr, addr.length = 4 ∧ p.remote_addr = dotted addr
  fits : 20 + p.l4_size + p.payload.length < 2 ^ 16

/-- A decoded packet is the captured one. -/
structure Shows (p : packet_record_t) (q : PcapFormat.IPv4 × PcapFormat.Segment) : Prop where
  unfragmented : q.1.more_fragments = false ∧ q.1.fragment_offset = 0
  protocol : q.1.protocol = p.protocol.toNat
  total_len : q.1.total_len = 20 + p.l4_size + p.payload.length
  sender : dotted q.1.src = p.sender.addr ∧ q.2.src_port = p.sender.port.toNat
  receiver : dotted q.1.dst = p.receiver.addr ∧ q.2.dst_port = p.receiver.port.toNat
  payload : q.2.payload = p.payload

/-- The frames of a file show some packets, one by one. -/
def Decodes (file : List UInt8) (pkts : List packet_record_t) : Prop :=
  ∃ frames, PcapFormat.file file = some frames ∧
    List.Forall₂ (fun frame p => ∃ q ∈ PcapFormat.packet frame, Shows p q) frames pkts

section

variable {p : packet_record_t} {pkts : List packet_record_t}

@[simp]
private theorem length_le16 (v : UInt16) : (le16 v).length = 2 := length_le 2 _

@[simp]
private theorem length_le32 (v : UInt32) : (le32 v).length = 4 := length_le 4 _

private theorem length_l4 : p.l4.length = p.l4_size := by
  cases hudp : p.udp <;> simp [packet_record_t.l4, packet_record_t.l4_size, hudp, udp_header_t.bytes, tcp_header_t.bytes]

private theorem length_ip_to_bytes (addr : List UInt8) : (ip_to_bytes addr).length = 16 := by
  unfold ip_to_bytes
  split
  · split <;> simp
  · simp

private theorem length_ip : p.ip.bytes.length = 20 := by
  simp [ipv4_header_t.bytes, packet_record_t.ip, length_ip_to_bytes]

private theorem length_frame : p.frame.length = 34 + p.l4_size + p.payload.length := by
  simp [packet_record_t.frame, eth_header_t.bytes, length_ip, length_l4]
  omega

/-- The records of the packets give their frames. -/
theorem records_write_pcap (hpkts : ∀ p ∈ pkts, Exportable p) :
    PcapFormat.records of_le pkts.length (pkts.flatMap fun p => p.rec_hdr ++ p.frame) =
      some (pkts.map packet_record_t.frame) := by
  induction pkts with
  | nil => rfl
  | cons p pkts ih =>
    obtain ⟨hp, hpkts⟩ := List.forall_mem_cons.mp hpkts
    have hfits := hp.fits
    have hword : p.frame.length.toUInt32.toNat = p.frame.length := by
      rw [Nat.toUInt32_eq, UInt32.toNat_ofNat', length_frame]
      omega
    have hlength : of_le (le32 p.frame.length.toUInt32) = p.frame.length := by
      rw [le32, hword, of_le_le]
      rw [length_frame]
      omega
    have htime : (le32 (p.at_ms / 1000).toUInt64.toUInt32 ++ le32 ((p.at_ms % 1000) * 1000).toUInt64.toUInt32).length = 8 := by
      simp
    have hrecord := PcapFormat.records_append htime (length_le32 _) (length_le32 p.frame.length.toUInt32) hlength (ih hpkts)
    simpa [packet_record_t.rec_hdr] using hrecord

private theorem length_le_flatMap (pkts : List packet_record_t) :
    pkts.length ≤ (pkts.flatMap fun p => p.rec_hdr ++ p.frame).length := by
  induction pkts with
  | nil => simp
  | cons p pkts ih =>
    rw [List.flatMap_cons, List.length_append, List.length_cons, List.length_append, length_frame]
    omega

/-- The file has the frames of its packets. -/
theorem file_write_pcap (hpkts : ∀ p ∈ pkts, Exportable p) :
    PcapFormat.file (write_pcap pkts) = some (pkts.map packet_record_t.frame) := by
  have hmiddle : (le16 2 ++ le16 4 ++ le32 0 ++ le32 0 ++ le32 0x40000).length = 16 := by simp
  have hfile := PcapFormat.file_append rfl hmiddle rfl (length_le_flatMap pkts) (records_write_pcap hpkts)
  rw [← hfile, write_pcap, global_hdr]
  simp only [List.append_assoc]
  rfl

/-- The type of a frame is written in the order of the processor. -/
theorem ethernet_frame (p : packet_record_t) :
    PcapFormat.ethernet p.frame = some { ethertype := 0x0008, body := p.ip.bytes ++ p.l4 ++ p.payload } := by
  have haddresses : ([0x02, 0, 0, 0, 0, 1] ++ [0x02, 0, 0, 0, 0, 2] : List UInt8).length = 12 := rfl
  have htype : of_be (le16 0x0800) = 0x0008 := by decide
  have hframe : p.frame = ([0x02, 0, 0, 0, 0, 1] ++ [0x02, 0, 0, 0, 0, 2]) ++
      (le16 0x0800 ++ (p.ip.bytes ++ p.l4 ++ p.payload)) := by
    simp only [packet_record_t.frame, eth_header_t.bytes, List.append_assoc]
  rw [hframe, PcapFormat.ethernet, split_append haddresses]
  simp only [Option.bind_eq_bind, Option.bind_some, split_append (length_le16 _), htype]

/-- No frame is taken for a packet of IPv4, so that the file decodes to its packets exactly if it has none. -/
theorem pcap_decodes_iff (hpkts : ∀ p ∈ pkts, Exportable p) : Decodes (write_pcap pkts) pkts ↔ pkts = [] := by
  have hnone : ∀ p : packet_record_t, PcapFormat.packet p.frame = none := by
    intro p
    rw [PcapFormat.packet, ethernet_frame]
    rfl
  constructor
  · rintro ⟨frames, hfile, hshows⟩
    rw [file_write_pcap hpkts] at hfile
    cases hfile
    cases pkts with
    | nil => rfl
    | cons p pkts =>
      obtain ⟨⟨q, hq, -⟩, -⟩ := List.forall₂_cons.mp hshows
      rw [hnone p] at hq
      cases hq
  · rintro rfl
    exact ⟨[], file_write_pcap (List.forall_mem_nil _), List.Forall₂.nil⟩

end

/-- A packet with one byte that was sent to a web server. -/
def request : packet_record_t where
  protocol := 6
  local_addr := ascii "10.0.0.1"
  local_port := 49152
  remote_addr := ascii "10.0.0.2"
  remote_port := 80
  payload := ascii "x"

private theorem request_exportable : ∀ p ∈ [request], Exportable p := by
  intro p hp
  obtain rfl : p = request := by simpa using hp
  exact ⟨Or.inl rfl, ⟨[10, 0, 0, 1], rfl, by decide⟩, ⟨[10, 0, 0, 2], rfl, by decide⟩, by decide⟩

theorem request_is_lost : ¬ Decodes (write_pcap [request]) [request] := by
  rw [pcap_decodes_iff request_exportable]
  exact List.cons_ne_nil _ _

/-- The type of the frame is 0x0008 to a reader. -/
theorem request_type_is_swapped :
    ¬ ∀ pkts : List packet_record_t, (∀ p ∈ pkts, Exportable p) → Decodes (write_pcap pkts) pkts := by
  intro hlaw
  obtain ⟨frames, hfile, hshows⟩ := hlaw [request] request_exportable
  rw [file_write_pcap request_exportable] at hfile
  cases hfile
  obtain ⟨⟨q, hq, -⟩, -⟩ := List.forall₂_cons.mp hshows
  have hnone : PcapFormat.packet request.frame = none := by decide
  rw [hnone] at hq
  cases hq

end slop.core.network
