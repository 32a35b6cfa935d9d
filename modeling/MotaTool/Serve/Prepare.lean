import MotaTool.Serve.Relay

/-!
# Preparing the streams

Before the link is opened every block of every container is compressed, and
progress is reported after each 64 blocks and after the last one. From then on
a request is answered from the cache and leaves it as it is, so that no
compressor runs while a peer waits.
-/

namespace MotaTool.Serve

open Base Run Format

structure Preparing where
  cache : DeflateCache
  done : ℕ
  progress : List (ℕ × ℕ)

structure Prepared where
  caches : List DeflateCache
  done : ℕ
  progress : List (ℕ × ℕ)

section Loops

variable {c : Crypto} (z : Compressors) (total : ℕ)

def prepareBlock (served : ServedMota c) (s : Preparing) (block : ℕ) : Preparing :=
  let done := s.done + 1
  { cache := (served.getOrInit z block s.cache).2
    done
    progress :=
      if done % 64 = 0 ∨ done = total then s.progress ++ [(done, total)] else s.progress }

def prepareMota (s : Prepared) (served : ServedMota c) : Prepared :=
  let last := (List.range served.manifest.blockCount).foldl (prepareBlock z total served)
    ⟨served.freshCache, s.done, s.progress⟩
  ⟨s.caches ++ [last.cache], last.done, last.progress⟩

def totalBlocks (motas : List (ServedMota c)) : ℕ :=
  (motas.map fun served => served.manifest.blockCount).sum

def prepareDeflateCache (motas : List (ServedMota c)) : Prepared :=
  motas.foldl (prepareMota z (totalBlocks motas)) ⟨[], 0, []⟩

end Loops

section Blocks

variable {c : Crypto} {z : Compressors} {served : ServedMota c} {cache : DeflateCache} {b n : ℕ}

def Filled (n : ℕ) (cache : DeflateCache) : Prop := ∀ b < n, ∃ entry, cache[b]? = some (some entry)

theorem rawBlock_isSome (hb : b < served.manifest.blockCount) :
    ∃ raw, served.rawBlock b = some raw := by
  rw [rawBlock_eq]
  exact ⟨_, List.getElem?_eq_getElem (by rwa [served.blocks_length])⟩

theorem getOrInit_fills (hlength : cache.length = served.manifest.blockCount)
    (hb : b < served.manifest.blockCount) (hfilled : Filled b cache) :
    Filled (b + 1) (served.getOrInit z b cache).2 := by
  have hin : b < cache.length := by rwa [hlength]
  obtain ⟨raw, hraw⟩ := @rawBlock_isSome c served b hb
  rw [ServedMota.getOrInit, hraw, List.getElem?_eq_getElem hin]
  cases hcell : cache[b] with
  | some entry =>
    intro k hk
    by_cases hsame : k = b
    · refine ⟨entry, ?_⟩
      change cache[k]? = _
      rw [hsame, List.getElem?_eq_getElem hin, hcell]
    · exact hfilled k (by omega)
  | none =>
    intro k hk
    by_cases hsame : k = b
    · exact ⟨_, by rw [hsame, List.getElem?_set_self hin]⟩
    · rw [List.getElem?_set_ne (Ne.symm hsame)]
      exact hfilled k (by omega)

theorem getOrInit_filled (h : Coherent z served cache)
    (hfilled : Filled served.manifest.blockCount cache) (b : ℕ) :
    served.getOrInit z b cache = (served.cachedDeflateBlock z b, cache) := by
  have hvalue := (getOrInit_coherent h b).1
  refine Prod.ext hvalue ?_
  rw [ServedMota.getOrInit]
  cases hraw : served.rawBlock b with
  | none => rfl
  | some raw =>
    have hb : b < served.manifest.blockCount := by
      rw [rawBlock_eq] at hraw
      rw [← served.blocks_length]
      exact (List.getElem?_eq_some_iff.mp hraw).1
    obtain ⟨entry, hentry⟩ := hfilled b hb
    rw [hentry]

theorem streams_filled (h : Coherent z served cache)
    (hfilled : Filled served.manifest.blockCount cache) (blocks : List ℕ) :
    served.streams z blocks cache = (blocks.map (served.cachedDeflateBlock z), cache) := by
  induction blocks with
  | nil => rfl
  | cons b blocks ih =>
    simp only [ServedMota.streams, getOrInit_filled h hfilled, ih, List.map_cons]

end Blocks

section Reports

variable {c : Crypto} {z : Compressors} {total : ℕ} {served : ServedMota c}

def reports (total done : ℕ) : List (ℕ × ℕ) :=
  ((List.range' 1 done).filter fun k => k % 64 = 0 ∨ k = total).map fun k => (k, total)

theorem reports_succ (total done : ℕ) : reports total (done + 1) =
    if (done + 1) % 64 = 0 ∨ done + 1 = total then reports total done ++ [(done + 1, total)]
    else reports total done := by
  rw [reports, List.range'_1_concat, List.filter_append, List.map_append, ← reports,
    Nat.add_comm 1 done]
  split_ifs with h <;> simp [h]

structure Halfway (z : Compressors) (total start : ℕ) (served : ServedMota c) (n : ℕ)
    (s : Preparing) : Prop where
  coherent : Coherent z served s.cache
  filled : Filled n s.cache
  done : s.done = start + n
  progress : s.progress = reports total (start + n)

theorem prepareBlock_halfway {start n : ℕ} {s : Preparing} (hn : n < served.manifest.blockCount)
    (h : Halfway z total start served n s) :
    Halfway z total start served (n + 1) (prepareBlock z total served s n) := by
  obtain ⟨hcoherent, hfilled, hdone, hprogress⟩ := h
  refine ⟨(getOrInit_coherent hcoherent n).2, getOrInit_fills hcoherent.length hn hfilled, ?_, ?_⟩
  · simp only [prepareBlock, hdone, Nat.add_assoc]
  · rw [← Nat.add_assoc, reports_succ]
    simp only [prepareBlock, hdone, hprogress]

theorem prepareBlocks_halfway {start n : ℕ} {s : Preparing} (hn : n ≤ served.manifest.blockCount)
    (h : Halfway z total start served 0 s) :
    Halfway z total start served n ((List.range n).foldl (prepareBlock z total served) s) := by
  induction n with
  | zero => exact h
  | succ n ih =>
    rw [List.range_succ, List.foldl_append]
    exact prepareBlock_halfway hn (ih (by omega))

structure PreparedUpTo (z : Compressors) (total : ℕ) (motas : List (ServedMota c)) (s : Prepared) :
    Prop where
  caches : List.Forall₂ (fun served cache =>
    Coherent z served cache ∧ Filled served.manifest.blockCount cache) motas s.caches
  done : s.done = totalBlocks motas
  progress : s.progress = reports total (totalBlocks motas)

theorem prepareMota_upTo {motas : List (ServedMota c)} {s : Prepared}
    (h : PreparedUpTo z total motas s) :
    PreparedUpTo z total (motas ++ [served]) (prepareMota z total s served) := by
  obtain ⟨hcaches, hdone, hprogress⟩ := h
  have hstart : Halfway z total s.done served 0 ⟨served.freshCache, s.done, s.progress⟩ :=
    ⟨freshCache_coherent, nofun, rfl, by rw [hprogress, hdone]; rfl⟩
  obtain ⟨hcoherent, hfilled, hdone', hprogress'⟩ := prepareBlocks_halfway (Nat.le_refl _) hstart
  have htotal : totalBlocks (motas ++ [served]) = s.done + served.manifest.blockCount := by
    rw [hdone]
    simp [totalBlocks]
  refine ⟨?_, by rw [htotal]; exact hdone', by rw [htotal]; exact hprogress'⟩
  exact List.rel_append hcaches (.cons ⟨hcoherent, hfilled⟩ .nil)

theorem prepareMotas_upTo (more : List (ServedMota c)) {motas : List (ServedMota c)} {s : Prepared}
    (h : PreparedUpTo z total motas s) :
    PreparedUpTo z total (motas ++ more) (more.foldl (prepareMota z total) s) := by
  induction more generalizing motas s with
  | nil => rwa [List.append_nil]
  | cons served more ih =>
    rw [List.append_cons]
    exact ih (prepareMota_upTo h)

end Reports

/-- After the preparation every cell is filled, a request for a block is answered with its stream
and leaves the cache as it is, and the reports are those of each 64 blocks and of the last. -/
theorem prepare_complete {c : Crypto} (z : Compressors) (motas : List (ServedMota c)) :
    (prepareDeflateCache z motas).progress = reports (totalBlocks motas) (totalBlocks motas) ∧
      (prepareDeflateCache z motas).caches.length = motas.length ∧
      ∀ (k : ℕ) (served : ServedMota c) (cache : DeflateCache), motas[k]? = some served →
        (prepareDeflateCache z motas).caches[k]? = some cache →
        cache.length = served.manifest.blockCount ∧
          (∀ b < served.manifest.blockCount,
            cache[b]? = some (some (served.cachedDeflateBlock z b))) ∧
          ∀ blocks, served.streams z blocks cache =
            (blocks.map (served.cachedDeflateBlock z), cache) := by
  have hstart : PreparedUpTo z (totalBlocks motas) ([] : List (ServedMota c)) ⟨[], 0, []⟩ :=
    ⟨.nil, rfl, rfl⟩
  obtain ⟨hcaches, -, hprogress⟩ := prepareMotas_upTo motas hstart
  refine ⟨hprogress, hcaches.length_eq.symm, fun k served cache hserved hcache => ?_⟩
  obtain ⟨hk, rfl⟩ := List.getElem?_eq_some_iff.mp hserved
  obtain ⟨hk', rfl⟩ := List.getElem?_eq_some_iff.mp hcache
  have hpair : Coherent z motas[k] (prepareDeflateCache z motas).caches[k] ∧
      Filled motas[k].manifest.blockCount (prepareDeflateCache z motas).caches[k] :=
    (List.forall₂_iff_get.mp hcaches).2 k hk hk'
  obtain ⟨hcoherent, hfilled⟩ := hpair
  refine ⟨hcoherent.length, fun b hb => ?_, streams_filled hcoherent hfilled⟩
  obtain ⟨entry, hentry⟩ := hfilled b hb
  rw [← hcoherent.filled b entry hentry]
  exact hentry

end MotaTool.Serve
