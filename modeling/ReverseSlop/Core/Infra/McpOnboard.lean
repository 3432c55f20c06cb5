import ReverseSlop.Library.Json
import ReverseSlop.Library.Numeral

namespace slop.core.infra.mcp_onboard

open Json Numeral

/-- `nlohmann::json::type_error`. -/
structure type_error_t where
  id : Nat
  deriving DecidableEq

/-- What `read_json_file` makes of a file. -/
inductive file_t where
  | missing
  | corrupt
  | parsed (doc : Value)

structure install_result_t where
  client : String
  installed : Bool
  path : String
  error : String

/-- The temporary file cannot be opened, takes the place of the file, or is written and then not moved there,
after the file was removed for it. -/
inductive write_t where
  | refused | taken | lost

def write_json_file (w : write_t) (file : file_t) (doc : Value) : Bool × file_t :=
  match w with
  | .refused => (false, file)
  | .taken => (true, .parsed doc)
  | .lost => (false, .missing)

def kServerName : List UInt8 := ascii "reverse-slop"

/-- `contains` of a json value. -/
def contains (key : List UInt8) (v : Value) : Bool := (v.member key).isSome

/-- Change what `operator[]` gives for some keys, one behind the other: a null becomes an object, a member that is
not there becomes a null. -/
def update (f : Value → Except type_error_t Value) : List (List UInt8) → Value → Except type_error_t Value
  | [], v => f v
  | key :: path, .object members =>
    (update f path ((SortedMap.find key members).getD .null)).map fun v => .object (SortedMap.set key v members)
  | key :: path, .null => (update f path .null).map fun v => .object [(key, v)]
  | _ :: _, _ => .error ⟨305⟩

def assign (path : List (List UInt8)) (value : Value) : Value → Except type_error_t Value := update (fun _ => .ok value) path

/-- `erase` of a json value. -/
def erase (key : List UInt8) : Value → Except type_error_t Value
  | .object members => .ok (.object (SortedMap.erase key members))
  | _ => .error ⟨307⟩

/-- The bare entry of a server: its url and, if there is a token, the headers. -/
def make_mcp_entry (port : UInt16) (token : List UInt8) : List (List UInt8 × Value) :=
  let entry := SortedMap.set (ascii "url")
    (.string (ascii "http://127.0.0.1:" ++ print 10 port.toNat ++ ascii "/mcp")) []
  if token = [] then entry
  else SortedMap.set (ascii "headers") (.object [(ascii "Authorization", .string (ascii "Bearer " ++ token))]) entry

def typed_entry (port : UInt16) (token : List UInt8) : List (List UInt8 × Value) :=
  SortedMap.set (ascii "type") (.string (ascii "http")) (make_mcp_entry port token)

/-- The end of an edit. -/
def finish (client path : String) (w : write_t) (file : file_t) (cfg : Value) : file_t × install_result_t :=
  let (wrote, file') := write_json_file w file cfg
  (file', { client, installed := wrote, path, error := if wrote then "" else "write failed" })

def install_url_entry (client path : String) (port : UInt16) (token : List UInt8) (with_type : Bool) (w : write_t)
    (file : file_t) : Except type_error_t (file_t × install_result_t) :=
  let edit (cfg : Value) : Except type_error_t (file_t × install_result_t) := do
    let cfg ←
      if (cfg.member (ascii "mcpServers")).any Value.is_object then pure cfg
      else assign [ascii "mcpServers"] (.object []) cfg
    if (cfg.member (ascii "mcpServers")).any (contains kServerName) then
      return (file, { client, installed := false, path, error := "" })
    let entry := if with_type then typed_entry port token else make_mcp_entry port token
    let cfg ← assign [ascii "mcpServers", kServerName] (.object entry) cfg
    return finish client path w file cfg
  match file with
  | .corrupt => return (file, { client, installed := false, path, error := "config unparseable, left untouched" })
  | .missing => edit (.object [])
  | .parsed cfg => edit cfg

def do_vscode (path : String) (port : UInt16) (token : List UInt8) (w : write_t) (file : file_t) :
    Except type_error_t (file_t × install_result_t) :=
  let client := "VS Code"
  let edit (settings : Value) : Except type_error_t (file_t × install_result_t) := do
    let settings ←
      if contains (ascii "mcp") settings then pure settings else assign [ascii "mcp"] (.object []) settings
    let settings ←
      if (settings.member (ascii "mcp")).any (contains (ascii "servers")) then pure settings
      else assign [ascii "mcp", ascii "servers"] (.object []) settings
    if (settings.lookup [ascii "mcp", ascii "servers"]).any (contains kServerName) then
      return (file, { client, installed := false, path, error := "" })
    let settings ← assign [ascii "mcp", ascii "servers", kServerName] (.object (typed_entry port token)) settings
    return finish client path w file settings
  match file with
  | .corrupt => return (file, { client, installed := false, path, error := "config unparseable, left untouched" })
  | .missing => edit (.object [])
  | .parsed settings => edit settings

/-- `remove_key` of `uninstall_all`. -/
def remove_key (client path : String) (servers_key : List UInt8) (parent_key : Option (List UInt8)) (w : write_t)
    (file : file_t) : Except type_error_t (file_t × install_result_t) :=
  match file with
  | .missing => return (file, { client, installed := false, path, error := "file not found" })
  | .corrupt => return (file, { client, installed := false, path, error := "config unparseable, left untouched" })
  | .parsed cfg => do
    let container := (parent_key.filter fun key => contains key cfg).toList
    if (cfg.lookup (container ++ [servers_key])).any (contains kServerName) then
      let cfg ← update (erase kServerName) (container ++ [servers_key]) cfg
      return finish client path w file cfg
    else return (file, { client, installed := false, path, error := "" })

/-- A client whose file holds a map of servers: one with a bare map, or VS Code. -/
inductive installer_t where
  | url_entry (client : String) (with_type : Bool)
  | vscode

namespace installer_t

variable (i : installer_t)

/-- Where the client has its servers. -/
def servers : List (List UInt8) :=
  match i with
  | .url_entry .. => [ascii "mcpServers"]
  | .vscode => [ascii "mcp", ascii "servers"]

def entry (port : UInt16) (token : List UInt8) : Value :=
  match i with
  | .url_entry _ with_type => .object (if with_type then typed_entry port token else make_mcp_entry port token)
  | .vscode => .object (typed_entry port token)

def install (path : String) (port : UInt16) (token : List UInt8) (w : write_t) (file : file_t) :
    Except type_error_t (file_t × install_result_t) :=
  match i with
  | .url_entry client with_type => install_url_entry client path port token with_type w file
  | .vscode => do_vscode path port token w file

def uninstall (path : String) (w : write_t) (file : file_t) : Except type_error_t (file_t × install_result_t) :=
  match i with
  | .url_entry client _ => remove_key client path (ascii "mcpServers") none w file
  | .vscode => remove_key "VS Code" path (ascii "servers") (some (ascii "mcp")) w file

end installer_t

/-- The document is unchanged or has got the entry where there was none. -/
def Added (i : installer_t) (port : UInt16) (token : List UInt8) (doc doc' : Value) : Prop :=
  doc' = doc ∨ doc.lookup (i.servers ++ [kServerName]) = none ∧
    doc.put (i.servers ++ [kServerName]) (i.entry port token) = some doc'

/-- The document is as before an installation, but that there may be an empty map of servers where there was
none. -/
def Restored (i : installer_t) (doc doc' : Value) : Prop :=
  doc' = doc ∨ doc.lookup i.servers = none ∧ doc.put i.servers (.object []) = some doc'

/-- A client's document is edited with care, where the file can be written. -/
structure Conservative (i : installer_t) (path : String) (port : UInt16) (token : List UInt8) (doc : Value) :
    Prop where
  /-- Nothing is thrown, only the entry is added, a second call does nothing, and the entry can be removed again. -/
  install : ∃ doc' r, i.install path port token .taken (.parsed doc) = .ok (.parsed doc', r) ∧
    Added i port token doc doc' ∧ (∃ r', i.install path port token .taken (.parsed doc') = .ok (.parsed doc', r')) ∧
    (r.installed = true → ∃ doc'' r'', i.uninstall path .taken (.parsed doc') = .ok (.parsed doc'', r'') ∧
      Restored i doc doc'')
  /-- Nothing is thrown, and only the entry is removed. -/
  uninstall : ∃ doc' r, i.uninstall path .taken (.parsed doc) = .ok (.parsed doc', r) ∧
    (doc' = doc ∨ doc.remove i.servers kServerName = some doc')

/-- The document is an object with objects on the way to the map of servers, as far as they are there; for VS Code,
without `mcp`, there is no such entry in a map beside it either. -/
def Suits (i : installer_t) (doc : Value) : Prop :=
  doc.Fits i.servers ∧ (i = .vscode → contains (ascii "mcp") doc = false →
    (doc.lookup [ascii "servers", kServerName]) = none)

section

variable {i : installer_t} {client path : String} {port : UInt16} {token : List UInt8} {with_type : Bool} {doc doc' : Value}
  {members : List (List UInt8 × Value)} {v : Value}

@[simp]
theorem update_nil (f : Value → Except type_error_t Value) (v : Value) : update f [] v = f v := by simp [update]

@[simp]
theorem update_object (f : Value → Except type_error_t Value) (key : List UInt8) (path : List (List UInt8))
    (members : List (List UInt8 × Value)) :
    update f (key :: path) (.object members) =
      (update f path ((SortedMap.find key members).getD .null)).map fun v => .object (SortedMap.set key v members) := by
  simp [update]

@[simp]
theorem update_null (f : Value → Except type_error_t Value) (key : List UInt8) (path : List (List UInt8)) :
    update f (key :: path) .null = (update f path .null).map fun v => .object [(key, v)] := by
  simp [update]

@[simp]
theorem find_nil (key : List UInt8) : SortedMap.find key ([] : List (List UInt8 × Value)) = none := by
  simp [SortedMap.find]

@[simp]
theorem set_nil (key : List UInt8) (v : Value) : SortedMap.set key v [] = [(key, v)] := by simp [SortedMap.set]

@[simp]
theorem find_single (key : List UInt8) (v : Value) : SortedMap.find key [(key, v)] = some v := by
  have hset := SortedMap.find_set (k := key) (v := v) SortedMap.Sorted.nil
  rwa [set_nil] at hset

@[simp]
theorem set_single (key : List UInt8) (v w : Value) : SortedMap.set key w [(key, v)] = [(key, w)] := by
  have hset := SortedMap.set_set (k := key) (v := v) (w := w) (l := [])
  rwa [set_nil, set_nil] at hset

@[simp]
theorem contains_object (key : List UInt8) (members : List (List UInt8 × Value)) :
    contains key (.object members) = (SortedMap.find key members).isSome := by
  simp [contains, Value.member]

variable (path port token) in
/-- A document with the entry is left as it is. -/
theorem install_again (hfits : doc.Fits i.servers) (hentry : (doc.lookup (i.servers ++ [kServerName])).isSome = true) :
    ∃ r, i.install path port token .taken (.parsed doc) = .ok (.parsed doc, r) ∧ r.installed = false := by
  obtain ⟨members, rfl⟩ := Value.is_object_iff.mp hfits.is_object
  cases i with
  | url_entry client with_type =>
    obtain ⟨_, hmember⟩ := hfits
    cases hfind : SortedMap.find (ascii "mcpServers") members with
    | none => simp [installer_t.servers, hfind] at hentry
    | some servers =>
      obtain ⟨entries, rfl⟩ := Value.is_object_iff.mp (hmember servers hfind)
      have hname : (SortedMap.find kServerName entries).isSome = true := by
        simpa [installer_t.servers, hfind] using hentry
      simp [installer_t.install, install_url_entry, Value.member, hfind, hname, Value.is_object, bind, Except.bind, pure,
        Except.pure]
  | vscode =>
    obtain ⟨_, hmember⟩ := hfits
    cases hfind : SortedMap.find (ascii "mcp") members with
    | none => simp [installer_t.servers, hfind] at hentry
    | some mcp =>
      obtain ⟨hmcp, hservers⟩ := hmember mcp hfind
      obtain ⟨inner, rfl⟩ := Value.is_object_iff.mp hmcp
      cases hfind' : SortedMap.find (ascii "servers") inner with
      | none => simp [installer_t.servers, hfind, hfind'] at hentry
      | some servers =>
        obtain ⟨entries, rfl⟩ := Value.is_object_iff.mp (hservers servers hfind')
        have hname : (SortedMap.find kServerName entries).isSome = true := by
          simpa [installer_t.servers, hfind, hfind'] using hentry
        simp [installer_t.install, do_vscode, Value.member, hfind, hfind', hname, bind, Except.bind, pure, Except.pure]

variable (path port token) in
/-- A document without the entry gets it. -/
theorem install_adds (hordered : doc.Everywhere Value.Ordered) (hfits : doc.Fits i.servers)
    (hnone : doc.lookup (i.servers ++ [kServerName]) = none) :
    ∃ doc' r, doc.put (i.servers ++ [kServerName]) (i.entry port token) = some doc' ∧
      i.install path port token .taken (.parsed doc) = .ok (.parsed doc', r) := by
  obtain ⟨members, rfl⟩ := Value.is_object_iff.mp hfits.is_object
  have hsorted : SortedMap.Sorted members := hordered.self
  cases i with
  | url_entry client with_type =>
    obtain ⟨_, hmember⟩ := hfits
    cases hfind : SortedMap.find (ascii "mcpServers") members with
    | none =>
      simp [installer_t.servers, installer_t.install, installer_t.entry, install_url_entry, Value.member, hfind, Value.put,
        assign, SortedMap.find_set hsorted, SortedMap.set_set, finish, write_json_file, Except.map, bind, Except.bind, pure,
        Except.pure]
    | some servers =>
      obtain ⟨entries, rfl⟩ := Value.is_object_iff.mp (hmember servers hfind)
      have hname : SortedMap.find kServerName entries = none := by simpa [installer_t.servers, hfind] using hnone
      simp [installer_t.servers, installer_t.install, installer_t.entry, install_url_entry, Value.member, hfind, hname,
        Value.put, assign, finish, write_json_file, Value.is_object, Except.map, bind, Except.bind, pure, Except.pure]
  | vscode =>
    obtain ⟨_, hmember⟩ := hfits
    cases hfind : SortedMap.find (ascii "mcp") members with
    | none =>
      simp [installer_t.servers, installer_t.install, installer_t.entry, do_vscode, Value.member, hfind, Value.put,
        assign, SortedMap.find_set hsorted, SortedMap.set_set, finish, write_json_file, Except.map, bind, Except.bind, pure,
        Except.pure]
    | some mcp =>
      obtain ⟨hmcp, hservers⟩ := hmember mcp hfind
      obtain ⟨inner, rfl⟩ := Value.is_object_iff.mp hmcp
      have hinner : SortedMap.Sorted inner := (hordered.member hfind).self
      cases hfind' : SortedMap.find (ascii "servers") inner with
      | none =>
        simp [installer_t.servers, installer_t.install, installer_t.entry, do_vscode, Value.member, hfind, hfind', Value.put,
          assign, SortedMap.find_set hsorted, SortedMap.find_set hinner, SortedMap.set_set, finish, write_json_file,
          Except.map, bind, Except.bind, pure, Except.pure]
      | some servers =>
        obtain ⟨entries, rfl⟩ := Value.is_object_iff.mp (hservers servers hfind')
        have hname : SortedMap.find kServerName entries = none := by
          simpa [installer_t.servers, hfind, hfind'] using hnone
        simp [installer_t.servers, installer_t.install, installer_t.entry, do_vscode, Value.member, hfind, hfind', hname,
          Value.put, assign, finish, write_json_file, Except.map, bind, Except.bind, pure, Except.pure]

/-- What `erase` does under some keys where the member is. -/
theorem update_erase {keys : List (List UInt8)} {key : List UInt8} (hremove : doc.remove keys key = some doc') :
    update (erase key) keys doc = .ok doc' := by
  induction keys generalizing doc doc' with
  | nil =>
    obtain ⟨members, rfl, _, rfl⟩ := remove_here hremove
    simp [erase]
  | cons k keys ih =>
    obtain ⟨members, x, inner, rfl, hfind, hinner, rfl⟩ := remove_cons hremove
    simp [hfind, ih hinner, Except.map]

/-- `remove_key` removes the entry, or leaves a document without it as it is. -/
theorem remove_key_cases {servers_key : List UInt8} {parent_key : Option (List UInt8)} {keys : List (List UInt8)}
    (hkeys : (parent_key.filter fun key => contains key doc).toList ++ [servers_key] = keys) :
    (doc.lookup (keys ++ [kServerName]) = none ∧ ∃ r,
        remove_key client path servers_key parent_key .taken (.parsed doc) = .ok (.parsed doc, r)) ∨
      ∃ doc' r, doc.remove keys kServerName = some doc' ∧
        remove_key client path servers_key parent_key .taken (.parsed doc) = .ok (.parsed doc', r) := by
  have hany : (doc.lookup keys).any (contains kServerName) = (doc.lookup (keys ++ [kServerName])).isSome := by
    rw [lookup_append]
    cases doc.lookup keys <;> simp [contains]
  cases hlookup : doc.lookup (keys ++ [kServerName]) with
  | none =>
    rw [hlookup, Option.isSome_none] at hany
    exact Or.inl ⟨by simp, by simp [remove_key, hkeys, hany, pure, Except.pure]⟩
  | some entry =>
    right
    have hsome : (doc.remove keys kServerName).isSome = true := by simp [remove_isSome_iff, hlookup]
    obtain ⟨doc', hremove⟩ := Option.isSome_iff_exists.mp hsome
    rw [hlookup, Option.isSome_some] at hany
    refine ⟨doc', { client, installed := true, path, error := "" }, hremove, ?_⟩
    simp [remove_key, hkeys, hany, update_erase hremove, finish, write_json_file, bind, Except.bind, pure, Except.pure]

variable (path) in
/-- Without `mcp` the entry in the servers at the root is removed if there is one. -/
theorem vscode_cases (hmcp : contains (ascii "mcp") doc = false) :
    (doc.lookup [ascii "servers", kServerName] = none ∧ ∃ r,
        installer_t.vscode.uninstall path .taken (.parsed doc) = .ok (.parsed doc, r)) ∨
      ∃ doc' r, doc.remove [ascii "servers"] kServerName = some doc' ∧
        installer_t.vscode.uninstall path .taken (.parsed doc) = .ok (.parsed doc', r) := by
  have hkeys : ((some (ascii "mcp")).filter fun key => contains key doc).toList ++ [ascii "servers"] = [ascii "servers"] := by
    simp [Option.filter, hmcp]
  exact remove_key_cases hkeys

variable (path) in
/-- The entry under the map of servers is removed if there is one. -/
theorem uninstall_cases (hparent : i = .vscode → contains (ascii "mcp") doc = true) :
    (doc.lookup (i.servers ++ [kServerName]) = none ∧ ∃ r,
        i.uninstall path .taken (.parsed doc) = .ok (.parsed doc, r)) ∨
      ∃ doc' r, doc.remove i.servers kServerName = some doc' ∧
        i.uninstall path .taken (.parsed doc) = .ok (.parsed doc', r) := by
  cases i with
  | url_entry client with_type => exact remove_key_cases (by simp [installer_t.servers])
  | vscode => exact remove_key_cases (by simp [installer_t.servers, Option.filter, hparent (by simp)])

theorem contains_of_lookup {key : List UInt8} (keys : List (List UInt8))
    (hlookup : (doc.lookup (key :: keys)).isSome = true) : contains key doc = true := by
  rw [contains]
  rw [Value.lookup] at hlookup
  cases hmember : doc.member key with
  | none => simp [hmember] at hlookup
  | some x => simp

/-- A document that suits is edited with care. -/
theorem conservative_of_suits (hordered : doc.Everywhere Value.Ordered) (hsuits : Suits i doc) :
    Conservative i path port token doc := by
  obtain ⟨hfits, hbeside⟩ := hsuits
  refine ⟨?_, ?_⟩
  · cases hlookup : doc.lookup (i.servers ++ [kServerName]) with
    | some entry =>
      obtain ⟨r, hinstall, hr⟩ := install_again path port token hfits (by simp [hlookup])
      exact ⟨doc, r, hinstall, Or.inl (by simp), ⟨r, hinstall⟩, by simp [hr]⟩
    | none =>
      obtain ⟨doc', r, hput, hinstall⟩ := install_adds path port token hordered hfits hlookup
      have hfound := lookup_put hordered hput
      obtain ⟨r', hagain, _⟩ := install_again path port token (fits_put hordered hput)
        (by simp [hfound])
      refine ⟨doc', r, hinstall, Or.inr ⟨hlookup, hput⟩, ⟨r', hagain⟩, ?_⟩
      intro _
      have hparent : i = .vscode → contains (ascii "mcp") doc' = true := by
        rintro rfl
        have hsome := Option.isSome_of_eq_some hfound
        exact contains_of_lookup [ascii "servers", kServerName] hsome
      obtain ⟨x, hremove, hx⟩ := remove_put hordered hlookup hput
      obtain ⟨hnone, _⟩ | ⟨doc'', r'', hremove', huninstall⟩ := uninstall_cases path hparent
      · simp [hfound] at hnone
      · obtain rfl := Option.some.inj (hremove.symm.trans hremove')
        exact ⟨x, r'', huninstall, hx.imp And.right id⟩
  · by_cases hparent : i = .vscode → contains (ascii "mcp") doc = true
    · obtain ⟨_, r, huninstall⟩ | ⟨doc', r, hremove, huninstall⟩ := uninstall_cases path hparent
      · exact ⟨doc, r, huninstall, Or.inl (by simp)⟩
      · exact ⟨doc', r, huninstall, Or.inr hremove⟩
    · obtain ⟨rfl, hmcp⟩ := Classical.not_imp.mp hparent
      have hmcp : contains (ascii "mcp") doc = false := by simpa using hmcp
      obtain ⟨_, r, huninstall⟩ | ⟨doc', r, hremove, _⟩ := vscode_cases path hmcp
      · exact ⟨doc, r, huninstall, Or.inl (by simp)⟩
      · have hsome : (doc.remove [ascii "servers"] kServerName).isSome = true := by simp [hremove]
        rw [remove_isSome_iff] at hsome
        simp [hbeside (by simp) hmcp] at hsome

/-- A map of servers that is something else than an object is replaced by one. -/
theorem url_entry_unfit {r : install_result_t} (hordered : doc.Everywhere Value.Ordered)
    (hunfit : ¬ doc.Fits [ascii "mcpServers"])
    (hinstall : install_url_entry client path port token with_type .taken (.parsed doc) = .ok (.parsed doc', r)) :
    doc' ≠ doc := by
  cases doc with
  | object members =>
    have hsorted : SortedMap.Sorted members := hordered.self
    cases hfind : SortedMap.find (ascii "mcpServers") members with
    | none =>
      have hfits : (Value.object members).Fits [ascii "mcpServers"] := by
        simp [Value.Fits, Value.is_object, Value.member, hfind]
      exact absurd hfits hunfit
    | some servers =>
      have hother : servers.is_object = false := by
        rw [← Bool.not_eq_true]
        intro hobject
        apply hunfit
        simp [Value.Fits, Value.member, hfind, hobject]
        simp [Value.is_object]
      simp [install_url_entry, Value.member, hfind, hother, assign, SortedMap.find_set hsorted, finish, write_json_file,
        Except.map, bind, Except.bind, pure, Except.pure] at hinstall
      rw [← hinstall.1]
      intro hsame
      rw [Value.object.injEq] at hsame
      rw [← hsame, SortedMap.find_set (hsorted.set _ _), Option.some.injEq] at hfind
      simp [← hfind, Value.is_object] at hother
  | null =>
    simp [install_url_entry, Value.member, assign, finish, write_json_file, Except.map, bind, Except.bind, pure,
      Except.pure] at hinstall
    simp [← hinstall.1]
  | _ => simp [install_url_entry, Value.member, assign, update, bind, Except.bind] at hinstall

/-- So is what stands on the way to the servers of VS Code, if it is a null. -/
theorem vscode_unfit {r : install_result_t} (hordered : doc.Everywhere Value.Ordered)
    (hunfit : ¬ doc.Fits [ascii "mcp", ascii "servers"])
    (hinstall : do_vscode path port token .taken (.parsed doc) = .ok (.parsed doc', r)) : doc' ≠ doc := by
  cases doc with
  | object members =>
    have hsorted : SortedMap.Sorted members := hordered.self
    cases hfind : SortedMap.find (ascii "mcp") members with
    | none =>
      have hfits : (Value.object members).Fits [ascii "mcp", ascii "servers"] := by
        simp [Value.Fits, Value.is_object, Value.member, hfind]
      exact absurd hfits hunfit
    | some mcp =>
      cases mcp with
      | object inner =>
        have hinner : SortedMap.Sorted inner := (hordered.member hfind).self
        cases hfind' : SortedMap.find (ascii "servers") inner with
        | none =>
          have hfits : (Value.object members).Fits [ascii "mcp", ascii "servers"] := by
            simp [Value.Fits, Value.is_object, Value.member, hfind, hfind']
          exact absurd hfits hunfit
        | some servers =>
          cases servers with
          | object entries =>
            have hfits : (Value.object members).Fits [ascii "mcp", ascii "servers"] := by
              simp [Value.Fits, Value.is_object, Value.member, hfind, hfind']
            exact absurd hfits hunfit
          | null =>
            simp [do_vscode, Value.member, hfind, hfind', contains, assign, finish, write_json_file, Except.map, bind,
              Except.bind, pure, Except.pure] at hinstall
            rw [← hinstall.1]
            intro hsame
            rw [Value.object.injEq] at hsame
            rw [← hsame, SortedMap.find_set hsorted, Option.some.injEq, Value.object.injEq] at hfind
            rw [← hfind, SortedMap.find_set hinner] at hfind'
            cases hfind'
          | _ =>
            simp [do_vscode, Value.member, hfind, hfind', contains, assign, update, Except.map, bind, Except.bind, pure,
              Except.pure] at hinstall
      | null =>
        simp [do_vscode, Value.member, hfind, contains, assign, SortedMap.find_set hsorted, SortedMap.set_set, finish,
          write_json_file, Except.map, bind, Except.bind, pure, Except.pure] at hinstall
        rw [← hinstall.1]
        intro hsame
        rw [Value.object.injEq] at hsame
        rw [← hsame, SortedMap.find_set hsorted] at hfind
        cases hfind
      | _ =>
        simp [do_vscode, Value.member, hfind, contains, assign, update, Except.map, bind, Except.bind, pure,
          Except.pure] at hinstall
  | null =>
    simp [do_vscode, Value.member, contains, assign, finish, write_json_file, Except.map, bind, Except.bind, pure,
      Except.pure] at hinstall
    simp [← hinstall.1]
  | _ => simp [do_vscode, Value.member, contains, assign, update, bind, Except.bind] at hinstall

theorem install_unfit {r : install_result_t} (hordered : doc.Everywhere Value.Ordered) (hunfit : ¬ doc.Fits i.servers)
    (hinstall : i.install path port token .taken (.parsed doc) = .ok (.parsed doc', r)) : doc' ≠ doc := by
  cases i with
  | url_entry client with_type => exact url_entry_unfit hordered hunfit hinstall
  | vscode => exact vscode_unfit hordered hunfit hinstall

variable (path) in
/-- Without `mcp` an entry beside it is removed. -/
theorem vscode_removes_beside (hmcp : contains (ascii "mcp") doc = false)
    (hentry : (doc.lookup [ascii "servers", kServerName]).isSome = true) :
    ∃ doc' r, doc.remove [ascii "servers"] kServerName = some doc' ∧
      installer_t.vscode.uninstall path .taken (.parsed doc) = .ok (.parsed doc', r) := by
  obtain ⟨hnone, _⟩ | hremoves := vscode_cases path hmcp
  · simp [hnone] at hentry
  · exact hremoves

/-- Exactly the documents that suit are edited with care. -/
theorem client_configs (i : installer_t) (path : String) (port : UInt16) (token : List UInt8)
    (doc : { v : Value // v.Everywhere Value.Ordered }) : Conservative i path port token doc.1 ↔ Suits i doc.1 := by
  obtain ⟨doc, hordered⟩ := doc
  refine ⟨?_, conservative_of_suits hordered⟩
  intro ⟨⟨doc', r, hinstall, hadded, _⟩, ⟨doc'', r', huninstall, hremoved⟩⟩
  refine ⟨?_, ?_⟩
  · by_contra hunfit
    obtain hsame | ⟨_, hput⟩ := hadded
    · exact install_unfit hordered hunfit hinstall hsame
    · have hsome := Option.isSome_of_eq_some hput
      exact hunfit ((put_isSome_iff kServerName).mp hsome)
  · rintro rfl hmcp
    by_contra hentry
    obtain ⟨x, r'', hremove, hbeside⟩ := vscode_removes_beside path hmcp (Option.isSome_iff_ne_none.mpr hentry)
    simp only at huninstall
    rw [hbeside, Except.ok.injEq, Prod.mk.injEq, file_t.parsed.injEq] at huninstall
    obtain ⟨rfl, rfl⟩ := huninstall
    obtain hsame | hremove' := hremoved
    · exact remove_ne hordered hremove hsame
    · obtain ⟨members, y, _, rfl, hfind, _⟩ := remove_cons hremove'
      simp [hfind] at hmcp

/-- An array at the root stops an installation with an exception. -/
theorem array_throws : ¬ Conservative (.url_entry "Cursor" false) "mcp.json" 8765 [] (.array []) := by
  intro ⟨⟨doc', r, hinstall, _⟩, _⟩
  simp [installer_t.install, install_url_entry, Value.member, assign, update, bind, Except.bind] at hinstall

end

end slop.core.infra.mcp_onboard
