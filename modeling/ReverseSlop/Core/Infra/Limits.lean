namespace slop.core.infra.limits

/-! The caps of `limits.hpp` that the modelled functions read. -/

def max_regions_enumerated : Nat := 65536

def max_scan_hits : Nat := 5000000

def max_stash_bytes : Nat := 1 <<< 30

def scan_chunk_bytes : Nat := 1 <<< 20

def max_aob_matches : Nat := 100000

def max_pointer_edges : Nat := 40000000

def max_pointer_depth : Nat := 7

def max_pointer_chains : Nat := 100000

def max_watch_entries : Nat := 4096

def max_live_jobs : Nat := 64

def pool_queue_cap : Nat := 4096

end slop.core.infra.limits
