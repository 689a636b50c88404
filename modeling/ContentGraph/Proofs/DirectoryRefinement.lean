import ContentGraph.Proofs.AddressForms
import ContentGraph.Proofs.DirectoryEntries
import ContentGraph.Proofs.MatchingStore

/-! A store in a directory that was empty at first answers as one in memory does, call by call. The
keys that name no file are refused, and the text of an address is none of them. -/

namespace ContentGraph

/-- What the calls are answered with, one after the other, and the state after them. -/
def runAll {γ σ α : Type} (perform : γ → σ → α × σ) : List γ → σ → List α × σ
  | [], s => ([], s)
  | call :: rest, s =>
    let (answer, next) := perform call s
    let (answers, last) := runAll perform rest next
    (answer :: answers, last)

theorem length_runAll {γ σ α : Type} (perform : γ → σ → α × σ) (calls : List γ) (s : σ) :
    (runAll perform calls s).1.length = calls.length := by
  induction calls generalizing s with
  | nil => rfl
  | cons call rest ih => exact congrArg (· + 1) (ih _)

/-- In related states a call is answered with what its answer by another system shows, and the states
after it are related. -/
structure Simulates {γ σ τ α : Type} (Related : σ → τ → Prop) (perform : γ → σ → α × σ)
    (perform' : γ → τ → α × τ) (shown : γ → α → α) : Prop where
  answer : ∀ call {s t}, Related s t → (perform call s).1 = shown call (perform' call t).1
  next : ∀ call {s t}, Related s t → Related (perform call s).2 (perform' call t).2

namespace Simulates

variable {γ σ τ α : Type} {Related : σ → τ → Prop} {perform : γ → σ → α × σ}
  {perform' : γ → τ → α × τ} {shown : γ → α → α} {s : σ} {t : τ}

theorem run (h : Simulates Related perform perform' shown) (calls : List γ)
    (hrelated : Related s t) : (runAll perform calls s).1 =
        (calls.zip (runAll perform' calls t).1).map (fun e => shown e.1 e.2) ∧
      Related (runAll perform calls s).2 (runAll perform' calls t).2 := by
  induction calls generalizing s t with
  | nil => exact ⟨rfl, hrelated⟩
  | cons call rest ih =>
    obtain ⟨hanswers, hlast⟩ := ih (h.next call hrelated)
    refine ⟨?_, hlast⟩
    change (perform call s).1 :: _ = shown call (perform' call t).1 :: _
    rw [h.answer call hrelated, hanswers]
    rfl

theorem run_eq (h : Simulates Related perform perform' fun _ answer => answer) (calls : List γ)
    (hrelated : Related s t) :
    (runAll perform calls s).1 = (runAll perform' calls t).1 := by
  rw [(h.run calls hrelated).1]
  exact List.map_snd_zip (Nat.le_of_eq (length_runAll perform' calls t))

end Simulates

inductive BackendCall
  | put (key : String) (value : Bytes)
  | get (key : String)
  | has (key : String)

inductive BackendAnswer
  | put (result : Except IoError Unit)
  | get (result : Except IoError (Option Bytes))
  | has (result : Except IoError Bool)

namespace BackendCall

def key : BackendCall → String
  | .put key _ | .get key | .has key => key

def perform {σ : Type} [Backend σ] (call : BackendCall) (s : σ) : BackendAnswer × σ :=
  match call with
  | .put key value => (Backend.write s key value).map .put id
  | .get key => (.get (Backend.read s key), s)
  | .has key => (.has (Backend.has s key), s)

/-- The answer to a call whose key names no file. -/
def refusal : BackendCall → BackendAnswer
  | .put key _ => .put (.error (DirectoryStore.invalidKey key))
  | .get key => .get (.error (DirectoryStore.invalidKey key))
  | .has key => .has (.error (DirectoryStore.invalidKey key))

end BackendCall

inductive StoreCall
  | put (o : Object)
  | get (a : Address)
  | has (a : Address)

inductive StoreAnswer
  | put (result : Except StoreError Unit)
  | get (result : Except StoreError Object)
  | has (result : Except StoreError Bool)

def StoreCall.perform {σ : Type} [Backend σ] (call : StoreCall) (s : σ) : StoreAnswer × σ :=
  match call with
  | .put o => (.put (Store.put o s).1, (Store.put o s).2)
  | .get a => (.get (Store.get s a), s)
  | .has a => (.has (Store.has s a), s)

theorem isKeyChar_hexDigit {n : Nat} (h : n < 16) : isKeyChar (hexDigit n) = true := by
  have hall : ∀ n < 16, isKeyChar (hexDigit n) = true := by decide
  exact hall n h

theorem Address.isEntryKey_text (a : Address) : IsEntryKey a.text := by
  have hhex : ∀ c ∈ hexOfBytes a.toBytes, isKeyChar c = true := by
    intro c hc
    obtain ⟨b, -, hb⟩ := List.mem_flatMap.mp hc
    have hlt := b.toNat_lt
    simp only [hexOfByte, List.mem_cons, List.not_mem_nil, or_false] at hb
    rcases hb with rfl | rfl
    · exact isKeyChar_hexDigit (by omega)
    · exact isKeyChar_hexDigit (by omega)
  have hlength : (hexOfBytes a.toBytes).length ≠ 0 := by
    simp [hexOfBytes, Address.toBytes, hexOfByte]
  refine DirectoryStore.isKey_iff.mp ?_
  rw [DirectoryStore.isKey, Bool.and_eq_true, decide_eq_true_iff, List.all_eq_true, text,
    String.length_ofList, String.toList_ofList]
  refine ⟨by rw [List.length_cons]; omega, fun c hc => ?_⟩
  rcases List.mem_cons.mp hc with rfl | hc
  · decide
  · exact hhex c hc

namespace DirectoryStore

theorem perform_of_not_isEntryKey (s : DirectoryStore) {call : BackendCall}
    (h : ¬IsEntryKey call.key) : call.perform s = (call.refusal, s) := by
  cases call with
  | put key value =>
    exact congrArg (Prod.map BackendAnswer.put id) (s.write_of_not_isEntryKey h value)
  | get key =>
    exact congrArg (fun result => (BackendAnswer.get result, s)) (s.read_of_not_isEntryKey h)
  | has key =>
    exact congrArg (fun result => (BackendAnswer.has result, s)) (s.has_of_not_isEntryKey h)

variable {s : DirectoryStore} {base : Place} {m : MemoryStore}

theorem simulates_backend (base : Place) :
    Simulates (fun (s : DirectoryStore) m => s.Mirrors base m) BackendCall.perform BackendCall.perform
      fun call answer => if IsEntryKey call.key then answer else call.refusal where
  answer call s m h := by
    by_cases hkey : IsEntryKey call.key
    · rw [if_pos hkey]
      cases call with
      | put key value =>
        obtain ⟨next, hwrite, -⟩ := h.write (show IsEntryKey key from hkey) value
        rw [BackendCall.perform, BackendCall.perform, hwrite]
        rfl
      | get key => exact congrArg BackendAnswer.get (h.read hkey)
      | has key => exact congrArg BackendAnswer.has (h.has hkey)
    · rw [if_neg hkey, s.perform_of_not_isEntryKey hkey]
  next call s m h := by
    by_cases hkey : IsEntryKey call.key
    · cases call with
      | put key value =>
        obtain ⟨next, hwrite, hmirrors⟩ := h.write (show IsEntryKey key from hkey) value
        rw [BackendCall.perform, hwrite]
        exact hmirrors
      | get key => exact h
      | has key => exact h
    · rw [s.perform_of_not_isEntryKey hkey]
      cases call with
      | put key value =>
        -- the memory does take the value, but under a key that the directory never reads
        refine h.of_same fun other hother => ?_
        have hne : other ≠ key := fun heq => hkey (heq ▸ hother)
        show (m.write key value).table.get? other = _
        rw [MemoryStore.get?_write, if_neg hne, Option.or_none]
      | get key => exact h
      | has key => exact h

theorem Mirrors.put (h : s.Mirrors base m) (o : Object) : ∃ next : DirectoryStore,
    Store.put o s = (.ok (), next) ∧ next.Mirrors base (Store.put o m).2 := by
  obtain ⟨next, hwrite, hmirrors⟩ := h.write o.address.isEntryKey_text o.data
  have hmemory : Store.put o m = (.ok (), m.write o.address.text o.data) := rfl
  rw [Store.put, hwrite, hmemory]
  exact ⟨next, rfl, hmirrors⟩

theorem Mirrors.getObject (h : s.Mirrors base m) (a : Address) : Store.get s a = Store.get m a := by
  rw [Store.get, Store.get, h.read a.isEntryKey_text]

theorem Mirrors.hasObject (h : s.Mirrors base m) (a : Address) : Store.has s a = Store.has m a := by
  rw [Store.has, Store.has, h.has a.isEntryKey_text]

theorem Mirrors.exists_replays (h : s.Mirrors base m) (objects : List Object) :
    ∃ (last : DirectoryStore) (held : MemoryStore),
      Replays Store.put s (objects.map .stored) last ∧
      Replays Store.put m (objects.map .stored) held ∧ last.Mirrors base held := by
  induction objects generalizing s m with
  | nil => exact ⟨s, m, .nil, .nil, h⟩
  | cons o rest ih =>
    obtain ⟨next, hput, hnext⟩ := h.put o
    obtain ⟨last, held, hrest, hmemory, hlast⟩ := ih hnext
    exact ⟨last, held, .stored hput hrest, .stored rfl hmemory, hlast⟩

theorem simulates_store (base : Place) :
    Simulates (fun (s : DirectoryStore) m => s.Mirrors base m) StoreCall.perform StoreCall.perform
      fun _ answer => answer where
  answer call s m h := by
    cases call with
    | put o =>
      obtain ⟨next, hput, -⟩ := h.put o
      rw [StoreCall.perform, StoreCall.perform, hput]
      rfl
    | get a => exact congrArg StoreAnswer.get (h.getObject a)
    | has a => exact congrArg StoreAnswer.has (h.hasObject a)
  next call s m h := by
    cases call with
    | put o =>
      obtain ⟨next, hput, hmirrors⟩ := h.put o
      rw [StoreCall.perform, StoreCall.perform, hput]
      exact hmirrors
    | get a => exact h
    | has a => exact h

/-- The root leads to a directory with nothing in it. -/
def IsEmpty (s : DirectoryStore) : Prop :=
  ∃ base, s.disk.walkPath s.root = .ok base ∧ s.disk.find? base = some .directory ∧
    ∀ names, names ≠ [] → s.disk.find? (base ++ names) = none

theorem of_open {root : Path} {disk : Disk} (h : DirectoryStore.open root disk = (.ok (), s)) :
    s.root = root ∧ disk.Keeps s.disk ∧ '\x00' ∉ root.text.toList := by
  have hkeep := Disk.Keeps.createDirectories disk root
  rcases hmake : Disk.createDirectories root disk with ⟨result, later⟩
  rw [DirectoryStore.open, hmake] at h
  obtain ⟨rfl, rfl⟩ := Prod.mk.inj h
  rw [hmake] at hkeep
  refine ⟨rfl, hkeep, fun hnul => ?_⟩
  have hne : root.text ≠ "" := by
    intro hempty
    rw [hempty] at hnul
    cases hnul
  have hstart : disk.start root = .error Disk.nulInName := by
    rw [Disk.start, if_pos (List.contains_iff_mem.mpr hnul)]
  rw [Disk.createDirectories, if_neg hne, hstart] at hmake
  cases hmake

theorem mirrors_of_isEmpty (h : s.IsEmpty) (hideal : s.disk.IsIdeal)
    (hclean : '\x00' ∉ s.root.text.toList) : ∃ base, s.Mirrors base MemoryStore.empty := by
  obtain ⟨base, hleads, hdirectory, hnone⟩ := h
  exact ⟨base, ⟨hideal, hclean, hleads, hdirectory⟩, fun key _ => hnone _ (List.cons_ne_nil _ _),
    fun key _ => .inr ⟨hnone _ (List.cons_ne_nil _ _), rfl⟩⟩

/-- A store opened in a directory with nothing in it, on a disk without limits, answers every run of
calls as a memory does, but for keys that name no file, which it refuses without a change. -/
theorem refines_memory {root : Path} {disk : Disk} (hideal : disk.IsIdeal)
    (hopen : DirectoryStore.open root disk = (.ok (), s)) (hempty : s.IsEmpty) :
    (∃ base, s.disk.walkPath root = .ok base ∧
      (∀ key, IsEntryKey key → ∃ path, s.entryPath key = .ok path ∧
        path.steps = root.steps ++ [shardOf key, key]) ∧
      ∀ calls answers last expected held,
        runAll BackendCall.perform calls s = (answers, last) →
        runAll BackendCall.perform calls MemoryStore.empty = (expected, held) →
          answers = (calls.zip expected).map
            (fun e => if IsEntryKey e.1.key then e.2 else e.1.refusal) ∧
          (∀ call : BackendCall, ¬IsEntryKey call.key → call.perform last = (call.refusal, last)) ∧
          (∀ key data, IsEntryKey key → held.table.get? key = some data →
            last.FiledAt key (base ++ [shardOf key, key]) ∧
              last.disk.find? (base ++ [shardOf key, key]) = some (.file data)) ∧
          last.KeepsApart base) ∧
    (∀ a : Address, IsEntryKey a.text) ∧
    ∀ calls, (runAll StoreCall.perform calls s).1 =
      (runAll StoreCall.perform calls MemoryStore.empty).1 := by
  obtain ⟨hroot, hkeep, hclean⟩ := of_open hopen
  obtain ⟨base, hmirrors⟩ := mirrors_of_isEmpty hempty (hkeep.limits.trans hideal) (hroot ▸ hclean)
  refine ⟨⟨base, hroot ▸ hmirrors.leads, fun key hkey => hroot ▸ s.steps_entryPath hkey, ?_⟩,
    Address.isEntryKey_text, fun calls => ?_⟩
  · intro calls answers last expected held hrun hmemory
    obtain ⟨hanswers, hlast⟩ := (simulates_backend base).run calls hmirrors
    rw [hrun, hmemory] at hanswers hlast
    exact ⟨hanswers, fun call => last.perform_of_not_isEntryKey,
      fun key data hkey hdata => hlast.filedAt hkey hdata, hlast.keepsApart⟩
  · exact (simulates_store base).run_eq calls hmirrors

/-- A disk without limits that has a directory with nothing in it. -/
def newDisk : Disk where
  entries := [(["store"], .directory)]
  limits := ⟨none, none⟩

theorem open_newDisk : DirectoryStore.open ⟨"store"⟩ newDisk = (.ok (), ⟨⟨"store"⟩, newDisk⟩) := by
  rfl

theorem isEmpty_newDisk : IsEmpty ⟨⟨"store"⟩, newDisk⟩ := by
  refine ⟨["store"], rfl, rfl, fun names hnames => ?_⟩
  obtain ⟨name, rest, rfl⟩ := List.exists_cons_of_ne_nil hnames
  simp [newDisk, Disk.find?]

theorem refines_memory_in_newDisk : (runAll BackendCall.perform
    [.put "a-key" [1], .put "a-key" [2], .get "a-key", .has "other", .has "../a-key"]
    (DirectoryStore.mk ⟨"store"⟩ newDisk)).1 =
      [.put (.ok ()), .put (.ok ()), .get (.ok (some [1])), .has (.ok false),
        .has (.error (invalidKey "../a-key"))] := by
  have hideal : newDisk.IsIdeal := rfl
  obtain ⟨⟨base, -, -, hruns⟩, -⟩ := refines_memory hideal open_newDisk isEmpty_newDisk
  have haccepted : IsEntryKey "a-key" := by decide
  have hother : IsEntryKey "other" := by decide
  have hrefused : ¬IsEntryKey "../a-key" := by decide
  rw [(hruns _ _ _ _ _ rfl rfl).1]
  simp only [runAll, BackendCall.perform, BackendCall.key, List.zip_cons_cons, List.zip_nil_left,
    List.map_cons, List.map_nil, haccepted, hother, hrefused, if_true, if_false]
  rfl

end DirectoryStore

end ContentGraph
