import Conduit.Api.Requests
import Conduit.Core.Base64
import Conduit.Core.Transition

/-!
# Issued keys

`conduit keys` issues and revokes keys, and only the hash of a key is stored.
`APIKeyAuth` reads the table of keys twice, once to look the presented key up and
once to see whether any key is live; commands may run between the two.  Which tenant
a request acts for is decided here by what the commands printed, whatever their order.
-/

namespace Conduit.IssuedKeys

open Models Relational Transition Api

/-! ## The key store -/

/-- A row of `api_keys`. -/
structure ApiKey where
  id : String
  tenantID : String
  name : String
  keyHash : List UInt8
  createdAt : ℤ
  revokedAt : Option ℤ
  deriving DecidableEq

def schema : Schema ApiKey String (List UInt8) where
  key := ApiKey.id
  index row := some row.keyHash

abbrev KeyTable := Table schema

/-- What a command reads from outside the database. -/
structure Env where
  /-- The bytes `newID` draws. -/
  idBytes : Fin 16 → UInt8
  /-- The bytes a key is made of. -/
  keyBytes : Fin 32 → UInt8
  /-- `NOW()` of the statement. -/
  dbNow : ℤ

/-- A UUID of version 4; `newJobID` is the same. -/
def newID (random : Fin 16 → UInt8) : String :=
  let bytes := List.ofFn fun index =>
    if index = 6 then (random index &&& 0x0f) ||| 0x40
    else if index = 8 then (random index &&& 0x3f) ||| 0x80
    else random index
  let hex := bytes.flatMap JobService.hexByte
  String.ofList (List.intercalate ['-']
    [hex.take 8, (hex.drop 8).take 4, (hex.drop 12).take 4, (hex.drop 16).take 4, hex.drop 20])

def newKey (random : Fin 32 → UInt8) : String :=
  "ck_" ++ String.ofList (Base64.encode (List.ofFn random))

/-- `^[a-z0-9_-]{1,64}$`. -/
def tenantPattern (tenant : String) : Bool :=
  let chars := tenant.toList
  1 ≤ chars.length && chars.length ≤ 64 && chars.all fun char =>
    ('a' ≤ char && char ≤ 'z') || ('0' ≤ char && char ≤ '9') || char = '_' || char = '-'

inductive KeysError
  | usage
  | invalidTenant
  | keyNotFound
  | database (err : InsertError)

def createKey (hashKey : String → List UInt8) (table : KeyTable) (env : Env)
    (tenant name : String) : Except KeysError (String × String) × KeyTable :=
  if tenantPattern tenant = true then
    let id := newID env.idBytes
    let key := newKey env.keyBytes
    match table.insert ⟨id, tenant, name, hashKey key, timestamptz env.dbNow, none⟩ with
    | .ok table => (.ok (id, key), table)
    | .error err => (.error (.database err), table)
  else (.error .invalidTenant, table)

def revoke (dbNow : ℤ) (id : String) : Update schema where
  selects row := row.id = id ∧ row.revokedAt = none
  decides _ := inferInstance
  set row := { row with revokedAt := some (timestamptz dbNow) }
  key_set _ := rfl
  index_set _ := rfl

def revokeKey (table : KeyTable) (dbNow : ℤ) (id : String) : Except KeysError Unit × KeyTable :=
  (if (table.affected (revoke dbNow id)).isEmpty = true then .error .keyNotFound else .ok (),
    table.exec (revoke dbNow id))

/-- Keys created at the same instant may come in any order; here, in that of the
table. -/
def listKeys (table : KeyTable) : List ApiKey :=
  table.rows.mergeSort fun left right => left.createdAt ≤ right.createdAt

/-! ## `conduit keys` -/

inductive Command
  | create (tenant name : String)
  | list
  | revoke (id : String)

def command : List String → Option Command
  | ["create", tenant] => some (.create tenant "")
  | ["create", tenant, name] => some (.create tenant name)
  | ["list"] => some .list
  | ["revoke", id] => some (.revoke id)
  | _ => none

/-- What a command that succeeds prints. -/
inductive Printed
  | created (id tenant key : String)
  | listed (keys : List ApiKey)
  | revoked (id : String)
  deriving DecidableEq

def runKeys (hashKey : String → List UInt8) (table : KeyTable) (env : Env)
    (args : List String) : Except KeysError Printed × KeyTable :=
  match command args with
  | some (.create tenant name) =>
      let created := createKey hashKey table env tenant name
      (created.1.map fun (id, key) => .created id tenant key, created.2)
  | some .list => (.ok (.listed (listKeys table)), table)
  | some (.revoke id) =>
      let revoked := revokeKey table env.dbNow id
      (revoked.1.map fun _ => .revoked id, revoked.2)
  | none => (.error .usage, table)

/-! ## Authentication in two reads -/

def keyRow (row : ApiKey) : KeyRow :=
  ⟨row.tenantID, row.keyHash, row.revokedAt⟩

/-- `APIKeyAuth` with a key store: `first` is the table `TenantForKey` reads and
`second` the one `HasActiveKeys` reads. -/
def apiKeyAuthReads (server : Server) (first second : KeyTable) (header : String) :
    Except ApiError String :=
  let presented := bearerToken header
  let issuedTo := if presented = "" then none
    else tenantForKey server.hashKey (first.rows.map keyRow) presented
  if presented ≠ "" ∧ presented ∈ server.apiKeys then .ok defaultTenant
  else match issuedTo with
    | some tenant => .ok tenant
    | none =>
        if server.apiKeys = [] ∧ hasActiveKeys (second.rows.map keyRow) = false
        then .ok defaultTenant
        else .error (if presented = "" then .missingToken else .invalidToken)

def authenticateReads (server : Server) (first second : KeyTable) (header : String) :
    Except ApiError String :=
  (apiKeyAuthReads server first second header).map tenantOf

/-! ## Runs of commands -/

/-- The table of keys, with everything the commands have printed, newest first. -/
structure Issuing where
  table : KeyTable
  printed : List Printed

def step (hashKey : String → List UInt8) (before : Issuing)
    (label : List String × Env) : Issuing :=
  let ran := runKeys hashKey before.table label.2 label.1
  { table := ran.2
    printed := ran.1.toOption.toList ++ before.printed }

/-- Any commands, by anyone, in any order. -/
def machine (hashKey : String → List UInt8) : Machine Issuing (List String × Env) where
  Init start := start.table = .empty schema ∧ start.printed = []
  Allowed _ _ := True
  step := step hashKey

/-- What a command does to the table and prints. -/
inductive Effect (hashKey : String → List UInt8) (before after : Issuing) : Prop
  | refused (htable : after.table = before.table) (hprinted : after.printed = before.printed)
  | listed (keys : List ApiKey) (htable : after.table = before.table)
      (hprinted : after.printed = .listed keys :: before.printed)
  | created (row : ApiKey) (random : Fin 32 → UInt8) (htenant : tenantPattern row.tenantID = true)
      (hlive : row.revokedAt = none) (hhash : row.keyHash = hashKey (newKey random))
      (hfresh : ∀ other ∈ before.table.rows, other.id ≠ row.id)
      (hrows : ∀ other, other ∈ after.table.rows ↔ other ∈ before.table.rows ∨ other = row)
      (hprinted : after.printed =
        .created row.id row.tenantID (newKey random) :: before.printed)
  | revoked (dbNow : ℤ) (id : String) (hid : ∃ row ∈ before.table.rows, row.id = id)
      (htable : after.table = before.table.exec (revoke dbNow id))
      (hprinted : after.printed = .revoked id :: before.printed)

section History

variable {hashKey : String → List UInt8}

theorem effect_create (before : Issuing) (env : Env) (tenant name : String) :
    Effect hashKey before
      ⟨(createKey hashKey before.table env tenant name).2,
        ((createKey hashKey before.table env tenant name).1.map
          fun (id, key) => Printed.created id tenant key).toOption.toList ++ before.printed⟩ := by
  rw [createKey]
  by_cases htenant : tenantPattern tenant = true
  · rw [if_pos htenant]
    dsimp only
    split
    next inserted hinsert =>
      have hfresh := (Table.insert_eq_ok hinsert).2.1
      exact .created ⟨newID env.idBytes, tenant, name, hashKey (newKey env.keyBytes),
        timestamptz env.dbNow, none⟩ env.keyBytes htenant rfl rfl hfresh
        (fun other => Table.mem_insert hinsert) rfl
    next => exact .refused rfl rfl
  · rw [if_neg htenant]
    exact .refused rfl rfl

theorem effect_revoke (before : Issuing) (dbNow : ℤ) (id : String) :
    Effect hashKey before
      ⟨(revokeKey before.table dbNow id).2,
        ((revokeKey before.table dbNow id).1.map
          fun _ => Printed.revoked id).toOption.toList ++ before.printed⟩ := by
  rw [revokeKey]
  cases haffected : before.table.affected (revoke dbNow id) with
  | nil => exact .refused (Table.exec_eq_self haffected) rfl
  | cons row rows =>
      have hrow : row ∈ before.table.affected (revoke dbNow id) := by
        rw [haffected]
        exact List.mem_cons_self
      obtain ⟨hmem, hselects⟩ := Table.mem_affected.mp hrow
      exact .revoked dbNow id ⟨row, hmem, hselects.1⟩ rfl rfl

theorem step_effect (before : Issuing) (label : List String × Env) :
    Effect hashKey before (step hashKey before label) := by
  rw [step, runKeys]
  cases command label.1 with
  | none => exact .refused rfl rfl
  | some wanted =>
      cases wanted with
      | create tenant name => exact effect_create before label.2 tenant name
      | list => exact .listed _ rfl rfl
      | revoke id => exact effect_revoke before label.2.dbNow id

/-! ## The table tells what was printed -/

/-- The key was issued and has not been revoked. -/
def Live (printed : List Printed) (id tenant key : String) : Prop :=
  .created id tenant key ∈ printed ∧ .revoked id ∉ printed

instance (printed : List Printed) (id tenant key : String) :
    Decidable (Live printed id tenant key) :=
  inferInstanceAs (Decidable (_ ∧ _))

/-- A row is that of a key that was printed, and is marked once it is revoked. -/
structure RowTold (hashKey : String → List UInt8) (printed : List Printed) (row : ApiKey) :
    Prop where
  issued : ∃ key, .created row.id row.tenantID key ∈ printed ∧ row.keyHash = hashKey key
  live : row.revokedAt = none ↔ .revoked row.id ∉ printed

structure Told (hashKey : String → List UInt8) (state : Issuing) : Prop where
  row : ∀ row ∈ state.table.rows, RowTold hashKey state.printed row
  stored : ∀ {id tenant key}, .created id tenant key ∈ state.printed →
    ∃ row ∈ state.table.rows, row.id = id ∧ row.tenantID = tenant ∧ row.keyHash = hashKey key
  known : ∀ {id}, .revoked id ∈ state.printed → ∃ row ∈ state.table.rows, row.id = id
  minted : ∀ {id tenant key}, .created id tenant key ∈ state.printed →
    tenantPattern tenant = true ∧ ∃ random, key = newKey random

theorem Told.created {before after : Issuing} (htold : Told hashKey before) {row : ApiKey}
    {random : Fin 32 → UInt8} (htenant : tenantPattern row.tenantID = true)
    (hlive : row.revokedAt = none) (hhash : row.keyHash = hashKey (newKey random))
    (hfresh : ∀ other ∈ before.table.rows, other.id ≠ row.id)
    (hrows : ∀ other, other ∈ after.table.rows ↔ other ∈ before.table.rows ∨ other = row)
    (hprinted : after.printed = .created row.id row.tenantID (newKey random) :: before.printed) :
    Told hashKey after := by
  have hrow : row ∈ after.table.rows := (hrows row).mpr (.inr rfl)
  have hkept {other : ApiKey} (hother : other ∈ before.table.rows) : other ∈ after.table.rows :=
    (hrows other).mpr (.inl hother)
  have hrevoked (id : String) : .revoked id ∈ after.printed ↔ .revoked id ∈ before.printed := by
    rw [hprinted]
    simp
  have hcreated (id tenant key : String) : .created id tenant key ∈ after.printed ↔
      (id = row.id ∧ tenant = row.tenantID ∧ key = newKey random) ∨
        .created id tenant key ∈ before.printed := by
    rw [hprinted]
    simp
  refine ⟨?_, ?_, ?_, ?_⟩
  · intro other hother
    rcases (hrows other).mp hother with hold | rfl
    · obtain ⟨⟨key, hkey, hkeyHash⟩, hmarked⟩ := htold.row other hold
      exact ⟨⟨key, (hcreated _ _ _).mpr (.inr hkey), hkeyHash⟩,
        hmarked.trans (not_congr (hrevoked _)).symm⟩
    · refine ⟨⟨newKey random, (hcreated _ _ _).mpr (.inl ⟨rfl, rfl, rfl⟩), hhash⟩, ?_⟩
      -- a fresh id has not been revoked
      refine ⟨fun _ hmarked => ?_, fun _ => hlive⟩
      obtain ⟨old, hold, hid⟩ := htold.known ((hrevoked _).mp hmarked)
      exact hfresh old hold hid
  · intro id tenant key hissued
    rcases (hcreated _ _ _).mp hissued with ⟨rfl, rfl, rfl⟩ | hold
    · exact ⟨row, hrow, rfl, rfl, hhash⟩
    · obtain ⟨other, hother, hsame⟩ := htold.stored hold
      exact ⟨other, hkept hother, hsame⟩
  · intro id hmarked
    obtain ⟨other, hother, hid⟩ := htold.known ((hrevoked id).mp hmarked)
    exact ⟨other, hkept hother, hid⟩
  · intro id tenant key hissued
    rcases (hcreated _ _ _).mp hissued with ⟨rfl, rfl, rfl⟩ | hold
    · exact ⟨htenant, random, rfl⟩
    · exact htold.minted hold

theorem Told.revoked {before after : Issuing} (htold : Told hashKey before) {dbNow : ℤ}
    {id : String} (hid : ∃ row ∈ before.table.rows, row.id = id)
    (htable : after.table = before.table.exec (revoke dbNow id))
    (hprinted : after.printed = .revoked id :: before.printed) : Told hashKey after := by
  have hmarked (other : String) : .revoked other ∈ after.printed ↔
      other = id ∨ .revoked other ∈ before.printed := by
    rw [hprinted]
    simp
  have hcreated (other tenant key : String) : .created other tenant key ∈ after.printed ↔
      .created other tenant key ∈ before.printed := by
    rw [hprinted]
    simp
  -- every row stays, with its id, tenant and hash
  have hkept {row : ApiKey} (hrow : row ∈ before.table.rows) : ∃ row' ∈ after.table.rows,
      row'.id = row.id ∧ row'.tenantID = row.tenantID ∧ row'.keyHash = row.keyHash := by
    rw [htable]
    refine ⟨_, Table.mem_exec.mpr ⟨row, hrow, rfl⟩, ?_⟩
    split
    · exact ⟨rfl, rfl, rfl⟩
    · exact ⟨rfl, rfl, rfl⟩
  refine ⟨?_, ?_, ?_, ?_⟩
  · intro row hrow
    rw [htable, Table.mem_exec] at hrow
    obtain ⟨old, hold, rfl⟩ := hrow
    obtain ⟨⟨key, hkey, hkeyHash⟩, hlive⟩ := htold.row old hold
    split
    · rename_i hselects
      exact ⟨⟨key, (hcreated _ _ _).mpr hkey, hkeyHash⟩,
        ⟨nofun, fun hnot => absurd ((hmarked _).mpr (.inl hselects.1)) hnot⟩⟩
    · rename_i hselects
      refine ⟨⟨key, (hcreated _ _ _).mpr hkey, hkeyHash⟩, ?_⟩
      rw [hmarked, not_or]
      exact ⟨fun hnone => ⟨fun hsame => hselects ⟨hsame, hnone⟩, hlive.mp hnone⟩,
        fun hnot => hlive.mpr hnot.2⟩
  · intro other tenant key hissued
    obtain ⟨row, hrow, rfl, rfl, hhash⟩ := htold.stored ((hcreated _ _ _).mp hissued)
    obtain ⟨row', hrow', hsameID, hsameTenant, hsameHash⟩ := hkept hrow
    exact ⟨row', hrow', hsameID, hsameTenant, hsameHash.trans hhash⟩
  · intro other hother
    have hstored : ∃ row ∈ before.table.rows, row.id = other := by
      rcases (hmarked other).mp hother with rfl | hold
      · exact hid
      · exact htold.known hold
    obtain ⟨row, hrow, rfl⟩ := hstored
    obtain ⟨row', hrow', hsameID, -⟩ := hkept hrow
    exact ⟨row', hrow', hsameID⟩
  · intro other tenant key hissued
    exact htold.minted ((hcreated _ _ _).mp hissued)

theorem Told.effect {before after : Issuing} (htold : Told hashKey before)
    (heffect : Effect hashKey before after) : Told hashKey after := by
  obtain ⟨table, printed⟩ := after
  cases heffect with
  | refused htable hprinted =>
      obtain rfl : table = before.table := htable
      obtain rfl : printed = before.printed := hprinted
      exact htold
  | listed keys htable hprinted =>
      obtain rfl : table = before.table := htable
      obtain rfl : printed = .listed keys :: before.printed := hprinted
      -- a listing tells nothing about any key
      have hrevoked (id : String) : Printed.revoked id ∈ Printed.listed keys :: before.printed ↔
          .revoked id ∈ before.printed := by simp
      have hcreated (id tenant key : String) :
          Printed.created id tenant key ∈ Printed.listed keys :: before.printed ↔
            .created id tenant key ∈ before.printed := by simp
      refine ⟨fun row hrow => ?_, ?_, ?_, ?_⟩
      · obtain ⟨⟨key, hkey, hhash⟩, hlive⟩ := htold.row row hrow
        exact ⟨⟨key, (hcreated _ _ _).mpr hkey, hhash⟩,
          hlive.trans (not_congr (hrevoked _)).symm⟩
      · exact fun hissued => htold.stored ((hcreated _ _ _).mp hissued)
      · exact fun hmarked => htold.known ((hrevoked _).mp hmarked)
      · exact fun hissued => htold.minted ((hcreated _ _ _).mp hissued)
  | created row random htenant hlive hhash hfresh hrows hprinted =>
      exact htold.created htenant hlive hhash hfresh hrows hprinted
  | revoked dbNow id hid htable hprinted => exact htold.revoked hid htable hprinted

theorem told {state : Issuing} (hreach : (machine hashKey).Reachable state) :
    Told hashKey state := by
  apply hreach.invariant
  · rintro ⟨table, printed⟩ ⟨htable, hprinted⟩
    obtain rfl : table = .empty schema := htable
    obtain rfl : printed = [] := hprinted
    exact ⟨nofun, nofun, nofun, nofun⟩
  · intro before label _ _ hbefore
    exact hbefore.effect (step_effect before label)

/-- A key is issued whenever the id and the hash are new. -/
theorem Told.printed_create {before : Issuing} (htold : Told hashKey before) (env : Env)
    {tenant : String} (htenant : tenantPattern tenant = true)
    (hid : ∀ owner key, .created (newID env.idBytes) owner key ∉ before.printed)
    (hhash : ∀ id owner key, .created id owner key ∈ before.printed →
      hashKey key ≠ hashKey (newKey env.keyBytes)) (name : String) :
    (step hashKey before (["create", tenant, name], env)).printed =
      .created (newID env.idBytes) tenant (newKey env.keyBytes) :: before.printed := by
  let row : ApiKey := ⟨newID env.idBytes, tenant, name, hashKey (newKey env.keyBytes),
    timestamptz env.dbNow, none⟩
  have hinsert : ∃ table, before.table.insert row = .ok table := by
    apply Table.exists_insert_eq_ok row
    · intro other hother hsame
      obtain ⟨key, hkey, -⟩ := (htold.row other hother).issued
      rw [show other.id = newID env.idBytes from hsame] at hkey
      exact hid _ key hkey
    · intro other hother
      obtain ⟨key, hkey, hstored⟩ := (htold.row other hother).issued
      refine .inr fun hsame => hhash _ _ _ hkey ?_
      rw [← hstored]
      exact Option.some.inj hsame
  obtain ⟨table, hok⟩ := hinsert
  simp only [step, runKeys, command, createKey]
  rw [if_pos htenant, show before.table.insert ⟨newID env.idBytes, tenant, name,
    hashKey (newKey env.keyBytes), timestamptz env.dbNow, none⟩ = .ok table from hok]
  rfl

/-- A key is revoked whenever it is live. -/
theorem Told.printed_revoke {before : Issuing} (htold : Told hashKey before)
    {id tenant key : String} (hlive : Live before.printed id tenant key) (env : Env) :
    (step hashKey before (["revoke", id], env)).printed = .revoked id :: before.printed := by
  obtain ⟨row, hrow, hid, -⟩ := htold.stored hlive.1
  have hunmarked : row.revokedAt = none := by
    apply (htold.row row hrow).live.mpr
    rw [hid]
    exact hlive.2
  have haffected : row ∈ before.table.affected (revoke env.dbNow id) :=
    Table.mem_affected.mpr ⟨hrow, hid, hunmarked⟩
  simp only [step, runKeys, command, revokeKey]
  cases hrows : before.table.affected (revoke env.dbNow id) with
  | nil =>
      rw [hrows] at haffected
      exact absurd haffected List.not_mem_nil
  | cons first rest => rfl

/-! ## What the two reads find -/

/-- No other key of this state has the hash of `presented`. -/
def CollisionFree (hashKey : String → List UInt8) (printed : List Printed)
    (presented : String) : Prop :=
  ∀ id tenant key, .created id tenant key ∈ printed → hashKey key = hashKey presented →
    key = presented

theorem Told.live_row {state : Issuing} (htold : Told hashKey state) {id tenant key : String}
    (hlive : Live state.printed id tenant key) :
    ∃ row ∈ state.table.rows, row.id = id ∧ row.tenantID = tenant ∧
      row.keyHash = hashKey key ∧ row.revokedAt = none := by
  obtain ⟨row, hrow, rfl, hsame⟩ := htold.stored hlive.1
  exact ⟨row, hrow, rfl, hsame.1, hsame.2, (htold.row row hrow).live.mpr hlive.2⟩

theorem Told.hasActiveKeys_iff {state : Issuing} (htold : Told hashKey state) :
    hasActiveKeys (state.table.rows.map keyRow) = true ↔
      ∃ id tenant key, Live state.printed id tenant key := by
  rw [hasActiveKeys, List.any_map, List.any_eq_true]
  constructor
  · rintro ⟨row, hrow, hnone⟩
    have hrevoked : row.revokedAt = none := of_decide_eq_true hnone
    obtain ⟨⟨key, hkey, -⟩, hlive⟩ := htold.row row hrow
    exact ⟨row.id, row.tenantID, key, hkey, hlive.mp hrevoked⟩
  · rintro ⟨id, tenant, key, hlive⟩
    obtain ⟨row, hrow, -, -, -, hnone⟩ := htold.live_row hlive
    exact ⟨row, hrow, decide_eq_true hnone⟩

theorem Told.tenantForKey_eq {state : Issuing} (htold : Told hashKey state)
    {id tenant key : String} (hlive : Live state.printed id tenant key) :
    tenantForKey hashKey (state.table.rows.map keyRow) key = some tenant := by
  obtain ⟨row, hrow, -, rfl, hhash, hnone⟩ := htold.live_row hlive
  rw [tenantForKey, List.find?_map, Option.map_map]
  -- the index on the hash leaves one row to find
  cases hfound : state.table.rows.find? ((fun row =>
      decide (row.keyHash = hashKey key ∧ row.revokedAt = none)) ∘ keyRow) with
  | none =>
      rw [List.find?_eq_none] at hfound
      exact absurd (decide_eq_true ⟨hhash, hnone⟩) (hfound row hrow)
  | some found =>
      have hmatches : found.keyHash = hashKey key ∧ found.revokedAt = none :=
        of_decide_eq_true (List.find?_some hfound :)
      have hsame : found = row := state.table.index_unique (List.mem_of_find?_eq_some hfound)
        hrow (congrArg some hmatches.1) (congrArg some hhash)
      rw [hsame]
      rfl

theorem Told.exists_live {state : Issuing} (htold : Told hashKey state)
    {presented tenant : String} (hfree : CollisionFree hashKey state.printed presented)
    (hfound : tenantForKey hashKey (state.table.rows.map keyRow) presented = some tenant) :
    ∃ id, Live state.printed id tenant presented := by
  rw [tenantForKey, List.find?_map, Option.map_map, Option.map_eq_some_iff] at hfound
  obtain ⟨row, hrow, rfl⟩ := hfound
  have hmatches : row.keyHash = hashKey presented ∧ row.revokedAt = none :=
    of_decide_eq_true (List.find?_some hrow :)
  obtain ⟨⟨key, hkey, hhash⟩, hlive⟩ := htold.row row (List.mem_of_find?_eq_some hrow)
  obtain rfl : key = presented := hfree _ _ _ hkey (hhash.symm.trans hmatches.1)
  exact ⟨row.id, hkey, hlive.mp hmatches.2⟩

theorem Told.tenantForKey_eq_none {state : Issuing} (htold : Told hashKey state)
    {presented : String} (hfree : CollisionFree hashKey state.printed presented)
    (hdead : ∀ id tenant, ¬ Live state.printed id tenant presented) :
    tenantForKey hashKey (state.table.rows.map keyRow) presented = none := by
  rw [Option.eq_none_iff_forall_ne_some]
  intro tenant hfound
  obtain ⟨id, hlive⟩ := htold.exists_live hfree hfound
  exact hdead id tenant hlive

end History

/-! ## Who a request acts for -/

theorem ne_empty_of_tenantPattern {tenant : String} (htenant : tenantPattern tenant = true) :
    tenant ≠ "" := by
  rintro rfl
  exact absurd htenant (by decide)

theorem newKey_toList (random : Fin 32 → UInt8) :
    (newKey random).toList = ['c', 'k', '_'] ++ Base64.encode (List.ofFn random) := by
  simp [newKey]

theorem newKey_injective : Function.Injective newKey := by
  intro first second hsame
  have htext : ['c', 'k', '_'] ++ Base64.encode (List.ofFn first) =
      ['c', 'k', '_'] ++ Base64.encode (List.ofFn second) := by
    rw [← newKey_toList, ← newKey_toList, hsame]
  have hbytes := congrArg Base64.decode (List.append_cancel_left htext)
  rw [Base64.decode_encode, Base64.decode_encode] at hbytes
  exact List.ofFn_injective (Option.some.inj hbytes)

theorem newKey_ne_empty (random : Fin 32 → UInt8) : newKey random ≠ "" := by
  intro hempty
  have htext := newKey_toList random
  rw [hempty] at htext
  cases htext

theorem isSpace_digit {value : ℕ} (hvalue : value < 64) :
    Cron.isSpace (Base64.digit value) = false := by
  have hall : ∀ index : Fin 64, Cron.isSpace (Base64.digit index) = false := by
    decide +kernel
  exact hall ⟨value, hvalue⟩

theorem isSpace_newKey {random : Fin 32 → UInt8} {char : Char}
    (hchar : char ∈ (newKey random).toList) : Cron.isSpace char = false := by
  obtain ⟨digits, hdigits, hencode, -⟩ := Base64.exists_digits (List.ofFn random)
  rw [newKey_toList, hencode, List.mem_append] at hchar
  rcases hchar with hhead | htail
  · have hall : ['c', 'k', '_'].all (fun char => !Cron.isSpace char) = true := by decide
    simpa only [Bool.not_eq_true'] using List.all_eq_true.mp hall char hhead
  · obtain ⟨value, hvalue, rfl⟩ := List.mem_map.mp htail
    exact isSpace_digit (hdigits value hvalue)

/-- A key comes out of the header it was put in. -/
theorem bearerToken_newKey (random : Fin 32 → UInt8) :
    bearerToken ("Bearer " ++ newKey random) = newKey random := by
  have htext : ("Bearer " ++ newKey random).toList =
      ['B', 'e', 'a', 'r', 'e', 'r', ' '] ++ (newKey random).toList := by
    simp
  rw [bearerToken, htext]
  have hscheme : ((['B', 'e', 'a', 'r', 'e', 'r', ' '] ++ (newKey random).toList).take 7).map
      Char.toLower = "bearer ".toList := by
    change ['B', 'e', 'a', 'r', 'e', 'r', ' '].map Char.toLower = _
    decide
  have hkey : (['B', 'e', 'a', 'r', 'e', 'r', ' '] ++ (newKey random).toList).drop 7 =
      (newKey random).toList := rfl
  rw [if_pos hscheme, hkey, Cron.trimSpace_eq_self fun _ => isSpace_newKey, String.ofList_toList]

/-- Who a request that presents `presented` acts for, by what the commands had
printed when the key was looked up and when it was asked whether a key is live. -/
inductive ActsFor (server : Server) (first second : List Printed) (presented : String) :
    String → Prop
  | configured (hpresented : presented ≠ "") (hkey : presented ∈ server.apiKeys) :
      ActsFor server first second presented defaultTenant
  | issued {id tenant : String} (hkey : presented ∉ server.apiKeys)
      (hlive : Live first id tenant presented) : ActsFor server first second presented tenant
  | unguarded (hnone : server.apiKeys = [])
      (hdead : ∀ id tenant, ¬ Live first id tenant presented)
      (hquiet : ∀ id tenant key, ¬ Live second id tenant key) :
      ActsFor server first second presented defaultTenant

section Authentication

variable {server : Server} {first second : Issuing} {header : String}

theorem authenticateReads_configured (hpresented : bearerToken header ≠ "")
    (hkey : bearerToken header ∈ server.apiKeys) :
    authenticateReads server first.table second.table header = .ok defaultTenant := by
  simp only [authenticateReads, apiKeyAuthReads, if_pos (And.intro hpresented hkey)]
  rfl

theorem authenticateReads_live {id tenant : String} (hfirst : Told server.hashKey first)
    (hkey : bearerToken header ∉ server.apiKeys)
    (hlive : Live first.printed id tenant (bearerToken header)) :
    authenticateReads server first.table second.table header = .ok tenant := by
  obtain ⟨htenant, random, hrandom⟩ := hfirst.minted hlive.1
  have hpresented : bearerToken header ≠ "" := hrandom ▸ newKey_ne_empty random
  have hnot : ¬ (bearerToken header ≠ "" ∧ bearerToken header ∈ server.apiKeys) :=
    fun hboth => hkey hboth.2
  simp only [authenticateReads, apiKeyAuthReads, if_neg hnot, if_neg hpresented,
    hfirst.tenantForKey_eq hlive]
  exact congrArg Except.ok (if_pos (ne_empty_of_tenantPattern htenant))

/-- A key that is neither configured nor live is let through by an open instance only. -/
theorem authenticateReads_dead
    (hkey : ¬ (bearerToken header ≠ "" ∧ bearerToken header ∈ server.apiKeys))
    (hnone : tenantForKey server.hashKey (first.table.rows.map keyRow) (bearerToken header) =
      none) :
    authenticateReads server first.table second.table header =
      if server.apiKeys = [] ∧ hasActiveKeys (second.table.rows.map keyRow) = false
      then .ok defaultTenant
      else .error (if bearerToken header = "" then .missingToken else .invalidToken) := by
  simp only [authenticateReads, apiKeyAuthReads, if_neg hkey, hnone, ite_self]
  split
  · rfl
  · rfl

theorem Told.hasActiveKeys_eq_false {hashKey : String → List UInt8} {state : Issuing}
    (htold : Told hashKey state) : hasActiveKeys (state.table.rows.map keyRow) = false ↔
      ∀ id tenant key, ¬ Live state.printed id tenant key := by
  rw [← Bool.not_eq_true, htold.hasActiveKeys_iff]
  simp only [not_exists]

theorem authenticateReads_of_actsFor {tenant : String} (hfirst : Told server.hashKey first)
    (hsecond : Told server.hashKey second)
    (hfree : CollisionFree server.hashKey first.printed (bearerToken header))
    (hacts : ActsFor server first.printed second.printed (bearerToken header) tenant) :
    authenticateReads server first.table second.table header = .ok tenant := by
  cases hacts with
  | configured hpresented hkey => exact authenticateReads_configured hpresented hkey
  | issued hkey hlive => exact authenticateReads_live hfirst hkey hlive
  | unguarded hnone hdead hquiet =>
      have hkey : ¬ (bearerToken header ≠ "" ∧ bearerToken header ∈ server.apiKeys) := by
        rw [hnone]
        exact fun hboth => List.not_mem_nil hboth.2
      rw [authenticateReads_dead hkey (hfirst.tenantForKey_eq_none hfree hdead),
        if_pos ⟨hnone, hsecond.hasActiveKeys_eq_false.mpr hquiet⟩]

/-- A request is let through or refused as what the commands had printed says. -/
theorem actsFor_or_refused (hfirst : Told server.hashKey first)
    (hsecond : Told server.hashKey second)
    (hfree : CollisionFree server.hashKey first.printed (bearerToken header)) :
    (∃ tenant, ActsFor server first.printed second.printed (bearerToken header) tenant) ∨
      authenticateReads server first.table second.table header =
        .error (if bearerToken header = "" then .missingToken else .invalidToken) := by
  by_cases hkey : bearerToken header ≠ "" ∧ bearerToken header ∈ server.apiKeys
  · exact .inl ⟨_, .configured hkey.1 hkey.2⟩
  · by_cases hlive : ∃ id tenant, Live first.printed id tenant (bearerToken header)
    · obtain ⟨id, tenant, hlive⟩ := hlive
      obtain ⟨-, random, hrandom⟩ := hfirst.minted hlive.1
      have hpresented : bearerToken header ≠ "" := hrandom ▸ newKey_ne_empty random
      exact .inl ⟨tenant, .issued (fun hmem => hkey ⟨hpresented, hmem⟩) hlive⟩
    · have hdead : ∀ id tenant, ¬ Live first.printed id tenant (bearerToken header) :=
        fun id tenant hfound => hlive ⟨id, tenant, hfound⟩
      rw [authenticateReads_dead hkey (hfirst.tenantForKey_eq_none hfree hdead)]
      split
      · rename_i hunguarded
        exact .inl ⟨_, .unguarded hunguarded.1 hdead
          (hsecond.hasActiveKeys_eq_false.mp hunguarded.2)⟩
      · exact .inr rfl

/-- Whatever commands have run, and whatever runs between the two reads, a request acts
for the tenant the printed keys and revocations give, and is refused if they give none. -/
theorem request_acts_for (hfirst : (machine server.hashKey).Reachable first)
    (hsecond : (machine server.hashKey).Reachable second)
    (hfree : CollisionFree server.hashKey first.printed (bearerToken header)) :
    (∀ tenant, authenticateReads server first.table second.table header = .ok tenant ↔
      ActsFor server first.printed second.printed (bearerToken header) tenant) ∧
    ((∀ tenant, ¬ ActsFor server first.printed second.printed (bearerToken header) tenant) →
      authenticateReads server first.table second.table header =
        .error (if bearerToken header = "" then .missingToken else .invalidToken)) := by
  have hdecided := actsFor_or_refused (told hfirst) (told hsecond) hfree
  constructor
  · intro tenant
    refine ⟨fun hauth => ?_, authenticateReads_of_actsFor (told hfirst) (told hsecond) hfree⟩
    rcases hdecided with ⟨other, hacts⟩ | hrefused
    · have hother := authenticateReads_of_actsFor (told hfirst) (told hsecond) hfree hacts
      obtain rfl : other = tenant := Except.ok.inj (hother.symm.trans hauth)
      exact hacts
    · rw [hrefused] at hauth
      cases hauth
  · intro hnone
    rcases hdecided with ⟨tenant, hacts⟩ | hrefused
    · exact absurd hacts (hnone tenant)
    · exact hrefused

/-- An instance without configured keys, with the text of a key for its hash. -/
def issuingServer : Server where
  lease := minute
  maxClaimWait := minute
  apiKeys := []
  hashKey key := key.toByteArray.data.toList
  collate _ _ := true
  quote := String.ofList

theorem issuingServer_injective : Function.Injective issuingServer.hashKey := by
  intro first second hsame
  exact String.toByteArray_inj.mp (ByteArray.ext (Array.toList_inj.mp hsame))

def constantEnv (byte : UInt8) : Env :=
  ⟨fun _ => byte, fun _ => byte, 0⟩

/-- A key for `acme` is issued. -/
def oneKey : Issuing :=
  step issuingServer.hashKey ⟨.empty schema, []⟩ (["create", "acme", ""], constantEnv 0)

/-- A second key is issued, for `zeta`, and the first is revoked. -/
def twoKeys : Issuing :=
  step issuingServer.hashKey
    (step issuingServer.hashKey oneKey (["create", "zeta", "laptop"], constantEnv 1))
    (["revoke", newID fun _ => 0], constantEnv 2)

theorem reachable_oneKey : (machine issuingServer.hashKey).Reachable oneKey :=
  .next _ (.start ⟨rfl, rfl⟩) trivial

theorem reachable_twoKeys : (machine issuingServer.hashKey).Reachable twoKeys :=
  (reachable_oneKey.next _ trivial).next _ trivial

theorem newID_zero_ne_one : (newID fun _ => 0) ≠ newID fun _ => 1 := by
  decide +kernel

theorem oneKey_printed :
    oneKey.printed = [.created (newID fun _ => 0) "acme" (newKey fun _ => 0)] := by
  have hstart : (machine issuingServer.hashKey).Reachable ⟨.empty schema, []⟩ :=
    .start ⟨rfl, rfl⟩
  apply (told hstart).printed_create (constantEnv 0) (by decide)
  · exact fun _ _ => List.not_mem_nil
  · exact fun _ _ _ hcreated => absurd hcreated List.not_mem_nil

theorem twoKeys_printed : twoKeys.printed =
    [.revoked (newID fun _ => 0), .created (newID fun _ => 1) "zeta" (newKey fun _ => 1),
      .created (newID fun _ => 0) "acme" (newKey fun _ => 0)] := by
  have hid : ∀ owner key, .created (newID fun _ => 1) owner key ∉ oneKey.printed := by
    intro owner key hcreated
    rw [oneKey_printed, List.mem_singleton] at hcreated
    injection hcreated with hsame
    exact newID_zero_ne_one hsame.symm
  have hhash : ∀ id owner key, .created id owner key ∈ oneKey.printed →
      issuingServer.hashKey key ≠ issuingServer.hashKey (newKey fun _ => 1) := by
    intro id owner key hcreated hsame
    rw [oneKey_printed, List.mem_singleton] at hcreated
    injection hcreated with _ _ hkey
    have hbytes := newKey_injective (hkey.symm.trans (issuingServer_injective hsame))
    exact absurd (congrFun hbytes 0) (by decide)
  have hissued : (step issuingServer.hashKey oneKey
      (["create", "zeta", "laptop"], constantEnv 1)).printed =
      [.created (newID fun _ => 1) "zeta" (newKey fun _ => 1),
        .created (newID fun _ => 0) "acme" (newKey fun _ => 0)] := by
    rw [← oneKey_printed]
    exact (told reachable_oneKey).printed_create (constantEnv 1) (by decide) hid hhash
      "laptop"
  have hlive : Live (step issuingServer.hashKey oneKey
      (["create", "zeta", "laptop"], constantEnv 1)).printed (newID fun _ => 0) "acme"
      (newKey fun _ => 0) := by
    rw [Live, hissued]
    simp
  rw [← hissued]
  exact (told (reachable_oneKey.next _ trivial)).printed_revoke hlive (constantEnv 2)

theorem collisionFree_twoKeys (presented : String) :
    CollisionFree issuingServer.hashKey twoKeys.printed presented :=
  fun _ _ _ _ hsame => issuingServer_injective hsame

theorem live_twoKeys : Live twoKeys.printed (newID fun _ => 1) "zeta" (newKey fun _ => 1) := by
  rw [Live, twoKeys_printed]
  simp [newID_zero_ne_one.symm]

/-- The key that was not revoked acts for its tenant. -/
theorem request_acts_for_twoKeys :
    Live twoKeys.printed (newID fun _ => 1) "zeta" (newKey fun _ => 1) ∧
      authenticateReads issuingServer twoKeys.table twoKeys.table
        ("Bearer " ++ newKey fun _ => 1) = .ok "zeta" := by
  refine ⟨live_twoKeys, ?_⟩
  have hheader := bearerToken_newKey fun _ => 1
  apply ((request_acts_for reachable_twoKeys reachable_twoKeys
    (collisionFree_twoKeys _)).1 "zeta").mpr
  rw [hheader]
  exact .issued List.not_mem_nil live_twoKeys

/-! ## The life of a key -/

/-- The row of a key is the only one with its hash, so that a revoked key finds none. -/
theorem Told.tenantForKey_revoked {hashKey : String → List UInt8} {state : Issuing}
    (htold : Told hashKey state) {id tenant key : String}
    (hissued : .created id tenant key ∈ state.printed) (hgone : .revoked id ∈ state.printed) :
    tenantForKey hashKey (state.table.rows.map keyRow) key = none := by
  obtain ⟨row, hrow, rfl, -, hhash⟩ := htold.stored hissued
  rw [tenantForKey, List.find?_map, Option.map_map, Option.map_eq_none_iff, List.find?_eq_none]
  intro found hfound hmatches
  obtain ⟨hsame, hnone⟩ : found.keyHash = hashKey key ∧ found.revokedAt = none :=
    of_decide_eq_true hmatches
  rw [state.table.index_unique hfound hrow (congrArg some hsame) (congrArg some hhash)] at hnone
  exact (htold.row row hrow).live.mp hnone hgone

theorem reachable_run {hashKey : String → List UInt8} {state : Issuing}
    (hreach : (machine hashKey).Reachable state) (labels : List (List String × Env)) :
    (machine hashKey).Reachable ((machine hashKey).run state labels) := by
  induction labels generalizing state with
  | nil => exact hreach
  | cons label labels ih => exact ih (hreach.next label trivial)

/-- What has been printed stays printed. -/
theorem printed_run {hashKey : String → List UInt8} {state : Issuing} {event : Printed}
    (labels : List (List String × Env)) (hevent : event ∈ state.printed) :
    event ∈ ((machine hashKey).run state labels).printed := by
  induction labels generalizing state with
  | nil => exact hevent
  | cons label labels ih => exact ih (List.mem_append_right _ hevent)

/-- A printed key that is not also configured, sent as printed, acts for its tenant until its
revocation is printed.  From then on, whatever commands follow, it is refused, unless the
instance is open to everyone. -/
theorem printed_key_acts_until_revoked {before : Issuing} {id tenant key : String}
    (hbefore : (machine server.hashKey).Reachable before)
    (hissued : .created id tenant key ∈ before.printed) (hkey : key ∉ server.apiKeys)
    (between after : List (List String × Env))
    (hfirst : first = (machine server.hashKey).run before between)
    (hsecond : second = (machine server.hashKey).run first after) :
    (.revoked id ∉ first.printed →
      authenticateReads server first.table second.table ("Bearer " ++ key) = .ok tenant) ∧
    (.revoked id ∈ before.printed →
      (server.apiKeys ≠ [] ∨ ∃ id tenant key, Live second.printed id tenant key) →
      authenticateReads server first.table second.table ("Bearer " ++ key) =
        .error .invalidToken) := by
  have hreach : (machine server.hashKey).Reachable first :=
    hfirst ▸ reachable_run hbefore between
  have htold := told hreach
  have hsecondTold : Told server.hashKey second := told (hsecond ▸ reachable_run hreach after)
  have hstill : .created id tenant key ∈ first.printed := hfirst ▸ printed_run between hissued
  obtain ⟨-, random, rfl⟩ := htold.minted hstill
  have hheader := bearerToken_newKey random
  constructor
  · intro hlive
    apply authenticateReads_live htold
    · rwa [hheader]
    · rw [hheader]
      exact ⟨hstill, hlive⟩
  · intro hrevoked hguarded
    have hgone : .revoked id ∈ first.printed := hfirst ▸ printed_run between hrevoked
    have hnone := htold.tenantForKey_revoked hstill hgone
    have hnot : ¬ (bearerToken ("Bearer " ++ newKey random) ≠ "" ∧
        bearerToken ("Bearer " ++ newKey random) ∈ server.apiKeys) := by
      rw [hheader]
      exact fun hboth => hkey hboth.2
    rw [authenticateReads_dead hnot (by rwa [hheader]), hheader,
      if_neg (newKey_ne_empty random), if_neg]
    rintro ⟨hopen, hquiet⟩
    rcases hguarded with hsome | ⟨other, owner, live, hlive⟩
    · exact hsome hopen
    · exact hsecondTold.hasActiveKeys_eq_false.mp hquiet other owner live hlive

/-- The revoked key is refused. -/
theorem printed_key_acts_until_revoked_twoKeys :
    .revoked (newID fun _ => 0) ∈ twoKeys.printed ∧
      authenticateReads issuingServer twoKeys.table twoKeys.table
        ("Bearer " ++ newKey fun _ => 0) = .error .invalidToken := by
  have hrevoked : .revoked (newID fun _ => 0) ∈ twoKeys.printed := by
    rw [twoKeys_printed]
    exact List.mem_cons_self
  have hissued : .created (newID fun _ => 0) "acme" (newKey fun _ => 0) ∈ twoKeys.printed := by
    rw [twoKeys_printed]
    simp
  have hstay : twoKeys = (machine issuingServer.hashKey).run twoKeys [] := List.foldl_nil.symm
  exact ⟨hrevoked, (printed_key_acts_until_revoked reachable_twoKeys hissued List.not_mem_nil
    [] [] hstay hstay).2 hrevoked
    (.inr ⟨_, _, _, live_twoKeys⟩)⟩

end Authentication

end Conduit.IssuedKeys
