import CServer.CloudDisk.ShareCount
import CServer.Foundation.Mirror

/-!
# The ranking in redis and the shared files in MySQL

Redis keeps a sorted set of the shared files by downloads and a hash of their
names. Both are partial copies of `share_file_list`: entries are lost when redis
is emptied, and the ranking is served from them when their number agrees with
the counter of the shared files. `RankTables` says that what is there is right;
each rule is one way in which a request changes the copies and the table.
-/
namespace CServer.CloudDisk

open Program Rows Runs Mirror

/-- The member under which redis keeps a shared file. -/
def ShareFile.fileid (r : ShareFile) : String := r.md5 ++ r.fileName

/-- `items` is the slice of the shared files in some order of descending
downloads, positions from `start` up to `start + count`. -/
def RankingSlice (rows : List ShareFile) (start count : ℤ) (items : List (String × ℤ)) : Prop :=
  ∃ order : List ShareFile, order.Perm rows ∧ order.Pairwise (fun a b => b.pv ≤ a.pv) ∧
    items = ((order.take (start + count).toNat).drop start.toNat).map (fun r => (r.fileName, r.pv))

/-- The counter and the two copies against the list. -/
structure RankTables (counter : ℤ) (shares : List ShareFile) (zset : ScoreSet String)
    (hash : Finmap (fun _ : String => String)) : Prop where
  counter_eq : counter = (shares.length : ℤ)
  fileid_nodup : (shares.map ShareFile.fileid).Nodup
  scores : Coherent zset.score (column ShareFile.fileid ShareFile.pv shares)
  names : Coherent (fun id => hash.lookup id) (column ShareFile.fileid ShareFile.fileName shares)
  names_mem : ∀ id ∈ hash, id ∈ zset

namespace RankTables

variable {counter : ℤ} {shares : List ShareFile} {zset : ScoreSet String}
  {hash : Finmap (fun _ : String => String)}

theorem nil : RankTables 0 [] .empty ∅ where
  counter_eq := rfl
  fileid_nodup := by simp
  scores := .of_none (fun _ => rfl)
  names := .of_none (fun _ => rfl)
  names_mem _ hid := absurd hid Finmap.notMem_empty

/-- Redis loses its keys. -/
theorem flush (h : RankTables counter shares zset hash) : RankTables counter shares .empty ∅ where
  counter_eq := h.counter_eq
  fileid_nodup := h.fileid_nodup
  scores := .of_none (fun _ => rfl)
  names := .of_none (fun _ => rfl)
  names_mem _ hid := absurd hid Finmap.notMem_empty

/-- A score may be written again when it is that of the row. -/
theorem setScore (h : RankTables counter shares zset hash) {r : ShareFile} (hr : r ∈ shares) :
    RankTables counter shares (zset.add r.fileid r.pv) hash where
  counter_eq := h.counter_eq
  fileid_nodup := h.fileid_nodup
  scores := by
    refine h.scores.at_key r.fileid (fun id hid => by rw [ScoreSet.score_add, if_neg hid])
      (fun _ _ => rfl) (fun c hc => ?_)
    rw [ScoreSet.score_add, if_pos rfl] at hc
    rw [column_of_mem h.fileid_nodup hr, hc]
  names := h.names
  names_mem id hid := by
    rw [ScoreSet.mem_add]
    exact .inr (h.names_mem id hid)

/-- So may a name, of a member. -/
theorem setName (h : RankTables counter shares zset hash) {r : ShareFile} (hr : r ∈ shares)
    (hmem : r.fileid ∈ zset) :
    RankTables counter shares zset (hash.insert r.fileid r.fileName) where
  counter_eq := h.counter_eq
  fileid_nodup := h.fileid_nodup
  scores := h.scores
  names := by
    refine h.names.at_key r.fileid (fun id hid => Finmap.lookup_insert_of_ne _ hid)
      (fun _ _ => rfl) (fun name hname => ?_)
    rw [Finmap.lookup_insert] at hname
    rw [column_of_mem h.fileid_nodup hr, hname]
  names_mem id hid := by
    rcases Finmap.mem_insert.mp hid with rfl | hid
    · exact hmem
    · exact h.names_mem id hid

/-- A new row comes first without entries in the copies. -/
theorem addRow (h : RankTables counter shares zset hash) {r : ShareFile}
    (hnew : ∀ r' ∈ shares, r'.fileid ≠ r.fileid) :
    RankTables (counter + 1) (shares ++ [r]) zset hash where
  counter_eq := by
    rw [h.counter_eq, List.length_append, List.length_singleton]
    push_cast
    rfl
  fileid_nodup := nodup_map_append_one h.fileid_nodup hnew
  scores id c hc := by
    rw [column_append_one, h.scores id c hc]
    rfl
  names id name hname := by
    rw [column_append_one, h.names id name hname]
    rfl
  names_mem := h.names_mem

/-- A row goes with its entries. -/
theorem dropRow (h : RankTables counter shares zset hash) {p : ShareFile → Bool} {r : ShareFile}
    (hr : r ∈ shares) (hp : ∀ r' ∈ shares, p r' = true ↔ r' = r) :
    RankTables (counter - 1) (deleteWhere p shares) (zset.erase r.fileid)
      (hash.erase r.fileid) where
  counter_eq := by
    have hlen := length_deleteWhere_one h.fileid_nodup hr hp
    rw [h.counter_eq, ← hlen]
    push_cast
    omega
  fileid_nodup := nodup_map_deleteWhere h.fileid_nodup
  scores := by
    refine h.scores.at_key r.fileid (fun id hid => by rw [ScoreSet.score_erase, if_neg hid])
      (fun id hid => column_deleteWhere (fun r' hr' hp' he => hid ?_)) (fun c hc => ?_)
    · rw [← he, (hp r' hr').mp hp']
    · rw [ScoreSet.score_erase, if_pos rfl] at hc
      cases hc
  names := by
    refine h.names.at_key r.fileid (fun id hid => Finmap.lookup_erase_ne hid)
      (fun id hid => column_deleteWhere (fun r' hr' hp' he => hid ?_)) (fun name hname => ?_)
    · rw [← he, (hp r' hr').mp hp']
    · rw [Finmap.lookup_erase] at hname
      cases hname
  names_mem id hid := by
    obtain ⟨hne, hid⟩ := Finmap.mem_erase.mp hid
    exact (zset.mem_erase _ _).mpr ⟨hne, h.names_mem id hid⟩

/-- A download is counted in the row and in the score. -/
theorem countDownload (h : RankTables counter shares zset hash) {p : ShareFile → Bool}
    {r : ShareFile} (hr : r ∈ shares) (hp : ∀ r' ∈ shares, p r' = true ↔ r' = r) (pv : ℤ) :
    RankTables counter (updateWhere p (fun r' => { r' with pv := pv }) shares)
      (zset.add r.fileid pv) hash where
  counter_eq := by rw [h.counter_eq, length_updateWhere]
  fileid_nodup := by
    rw [map_updateWhere ShareFile.fileid (by exact fun _ _ => rfl)]
    exact h.fileid_nodup
  scores := by
    refine h.scores.at_key r.fileid (fun id hid => by rw [ScoreSet.score_add, if_neg hid])
      (fun id hid => ?_) (fun c hc => ?_)
    · refine column_updateWhere (f := fun r' : ShareFile => { r' with pv := pv })
        (fun _ => rfl) ?_
      intro r' hr' hp'
      left
      rw [(hp r' hr').mp hp']
      exact Ne.symm hid
    · rw [ScoreSet.score_add, if_pos rfl] at hc
      have hmem : { r with pv := pv } ∈ updateWhere p (fun r' => { r' with pv := pv }) shares :=
        mem_updateWhere.mpr (.inl ⟨r, hr, (hp r hr).mpr rfl, rfl⟩)
      have hnodup : ((updateWhere p (fun r' => { r' with pv := pv }) shares).map
          ShareFile.fileid).Nodup := by
        rw [map_updateWhere ShareFile.fileid (by exact fun _ _ => rfl)]
        exact h.fileid_nodup
      rw [← hc]
      exact column_of_mem (k := ShareFile.fileid) (v := ShareFile.pv) hnodup hmem
  names := by
    have hsame : column ShareFile.fileid ShareFile.fileName
        (updateWhere p (fun r' => { r' with pv := pv }) shares) =
          column ShareFile.fileid ShareFile.fileName shares :=
      funext fun id => column_updateWhere (by exact fun _ => rfl) (by exact fun _ _ _ => .inr rfl)
    rw [hsame]
    exact h.names
  names_mem id hid := by
    rw [ScoreSet.mem_add]
    exact .inr (h.names_mem id hid)

/-- The copies filled from rows with distinct file ids, each of them in the list. -/
theorem importRanking (s : Store) (rows : List ShareFile)
    (h : RankTables counter shares s.filePublicZset s.fileNameHash)
    (hrows : ∀ r ∈ rows, r ∈ shares) :
    RankTables counter shares (s.importRanking rows).filePublicZset
        (s.importRanking rows).fileNameHash ∧
      ∀ id, (id ∈ s.filePublicZset ∨ ∃ r ∈ rows, r.fileid = id) →
        id ∈ (s.importRanking rows).filePublicZset := by
  induction rows generalizing s with
  | nil => exact ⟨h, fun id hid => hid.resolve_right (by simp)⟩
  | cons r rows ih =>
    have hr : r ∈ shares := hrows r List.mem_cons_self
    have hmem : r.fileid ∈ s.filePublicZset.add r.fileid r.pv := (ScoreSet.mem_add _ _ _ _).mpr (.inl rfl)
    have hnext := ih ((s.zadd r.fileid r.pv).hset r.fileid r.fileName)
      ((h.setScore hr).setName hr hmem) (fun r' hr' => hrows r' (List.mem_cons_of_mem r hr'))
    refine ⟨hnext.1, fun id hid => hnext.2 id ?_⟩
    rcases hid with hid | ⟨r', hr', he⟩
    · exact .inl ((ScoreSet.mem_add _ _ _ _).mpr (.inr hid))
    · rcases List.mem_cons.mp hr' with rfl | hr'
      · exact .inl ((ScoreSet.mem_add _ _ _ _).mpr (.inl he.symm))
      · exact .inr ⟨r', hr', he⟩

end RankTables

theorem mem_shareFilesByPv {rows : List ShareFile} {r : ShareFile} :
    r ∈ shareFilesByPv rows ↔ r ∈ rows := by
  rw [shareFilesByPv, List.mem_insertionSort]

/-- A value within the range of an `int` is kept. -/
theorem int32_of_range {n : ℤ} (hlow : -2 ^ 31 ≤ n) (hhigh : n < 2 ^ 31) : int32 n = n := by
  have hhalf : (((2 ^ 32 : ℕ) : ℤ) / 2) = 2 ^ 31 := by decide
  have hhalf' : ((((2 ^ 32 : ℕ) : ℤ) + 1) / 2) = 2 ^ 31 := by decide
  exact Int.bmod_eq_of_le (by omega) (by omega)

/-- For a page whose end is an `int`, ZREVRANGE and the copying loop give the
members at its positions. With `count` 0 the range may be the whole set, of
which nothing is copied. -/
theorem rankingPage_eq (s : Store) {start count : ℤ} (hstart : 0 ≤ start) (hcount : 0 ≤ count)
    (hint : count < 2 ^ 31) (hend : start + count ≤ 2 ^ 31) :
    s.rankingPage start count =
      (s.filePublicZset.ranking.take (start + count).toNat).drop start.toNat := by
  have hpos : int32 (start + count - 1) = start + count - 1 := int32_of_range (by omega) (by omega)
  have hasked : int32 (start + count - 1 - start + 1) = count := by
    rw [show start + count - 1 - start + 1 = count by omega]
    exact int32_of_range (by omega) hint
  have hlen : (start + count).toNat - start.toNat = count.toNat := by omega
  simp only [Store.rankingPage, hpos, hasked]
  rw [List.drop_take, hlen]
  by_cases hneg : start + count - 1 < 0
  · have hzero : count = 0 := by omega
    subst hzero
    rw [Int.toNat_zero, List.take_zero]
    split_ifs with hmore
    · rfl
    · simp only [le_refl, true_and, not_lt] at hmore
      exact List.length_eq_zero_iff.mp (by omega)
  · have hrange : zrevrange s.filePublicZset start (start + count - 1) =
        (s.filePublicZset.ranking.drop start.toNat).take count.toNat := by
      simp only [zrevrange, if_neg hneg, if_neg (not_lt.mpr hstart)]
      rw [show start + count - 1 - start + 1 = count by omega]
    rw [hrange]
    split_ifs
    · rw [List.take_take, min_self]
    · rfl

namespace RankTables

variable {counter : ℤ} {shares : List ShareFile} {zset : ScoreSet String}
  {hash : Finmap (fun _ : String => String)}

/-- A complete sorted set ranks the rows of the list. -/
theorem exists_order (h : RankTables counter shares zset hash)
    (hall : ∀ id, zset.score id = column ShareFile.fileid ShareFile.pv shares id) :
    ∃ order : List ShareFile, order.map ShareFile.fileid = zset.ranking ∧ order.Perm shares ∧
      order.Pairwise (fun a b => b.pv ≤ a.pv) := by
  have hscore : ∀ r ∈ shares, zset.score r.fileid = some r.pv := by
    intro r hr
    rw [hall, column_of_mem h.fileid_nodup hr]
  have hrows : ∀ id ∈ zset.ranking, ∃ r ∈ shares, r.fileid = id := by
    intro id hid
    obtain ⟨c, hc⟩ := (zset.mem_iff_score id).mp ((zset.mem_ranking id).mp hid)
    rw [hall, column_eq_some h.fileid_nodup] at hc
    obtain ⟨r, hr, he, -⟩ := hc
    exact ⟨r, hr, he⟩
  obtain ⟨order, hmap, hmem⟩ := exists_rows_of_keys hrows
  have hnodup : (order.map ShareFile.fileid).Nodup := hmap ▸ zset.ranking_nodup
  refine ⟨order, hmap, ?_, ?_⟩
  · rw [List.perm_ext_iff_of_nodup (List.Nodup.of_map _ hnodup)
      (List.Nodup.of_map _ h.fileid_nodup)]
    intro r
    refine ⟨hmem r, fun hr => ?_⟩
    have hid : r.fileid ∈ order.map ShareFile.fileid := by
      rw [hmap, ScoreSet.mem_ranking, ScoreSet.mem_iff_score]
      exact ⟨r.pv, hscore r hr⟩
    obtain ⟨r', hr', he⟩ := List.mem_map.mp hid
    rwa [← List.inj_on_of_nodup_map h.fileid_nodup (hmem r' hr') hr he]
  · have hdesc := zset.ranking_descending
    rw [← hmap, List.pairwise_map] at hdesc
    refine hdesc.imp_of_mem (fun ha hb hab => ?_)
    exact hab _ _ (hscore _ (hmem _ ha)) (hscore _ (hmem _ hb))

/-- Entries that are there are those of the rows. -/
theorem rankingItems_eq (s : Store)
    (h : RankTables counter shares s.filePublicZset s.fileNameHash) {rows : List ShareFile}
    (hrows : ∀ r ∈ rows, r ∈ shares) {items : List (String × ℤ)}
    (hitems : (rows.map ShareFile.fileid).mapM s.rankingItem = some items) :
    items = rows.map (fun r => (r.fileName, r.pv)) := by
  induction rows generalizing items with
  | nil =>
    simpa using hitems.symm
  | cons r rows ih =>
    have hr : r ∈ shares := hrows r List.mem_cons_self
    rw [List.map_cons, List.mapM_cons] at hitems
    obtain ⟨item, hitem, hitems⟩ := Option.bind_eq_some_iff.mp hitems
    obtain ⟨rest, hrest, hitems⟩ := Option.bind_eq_some_iff.mp hitems
    have hhead : item = (r.fileName, r.pv) := by
      unfold Store.rankingItem at hitem
      split at hitem
      next filename score hname hscore =>
        have hn := h.names r.fileid filename hname
        have hs := h.scores r.fileid score hscore
        rw [column_of_mem h.fileid_nodup hr, Option.some.injEq] at hn hs
        split_ifs at hitem
        rw [← Option.some.inj hitem, hn, hs]
      next => cases hitem
    rw [← Option.some.inj hitems, hhead, List.map_cons,
      ih (fun r' hr' => hrows r' (List.mem_cons_of_mem r hr')) hrest]

end RankTables

/-- `del_file` of this file leaves the copies right: it is refused, no share is
counted, or the share it removes is the user's own and goes from redis too. -/
def DeletionRanked (R : RedisServer) (s : Store) (user md5 filename : String) : Prop :=
  s.shareFlags R user md5 filename = none ∨ shareCountKey ∉ s.userFileCount ∨
    (user ≠ shareCountKey ∧
      ((s.shareFlags R user md5 filename).map Prod.fst = some 1 →
        (∃ r ∈ s.shareFileList, r.key = (user, md5, filename)) ∧
          (s.shareFlags R user md5 filename = some (1, true) ∨
            md5 ++ filename ∉ s.filePublicZset)))

/-- A sharing is refused by redis, or of a file with a member name of its own, or
repeats a share without downloads; a cancellation and a deletion are of the user's
own share; redis answers 0 or 1 about a downloaded file; nobody gets a file under
the reserved name; and the page asked for is one of an `int` range. -/
def RankSafe (R : RedisServer) (s : Store) : Request → Prop
  | .upload user _ _ _ _ _ _ => user ≠ shareCountKey
  | .dealMd5 user md5 filename _ | .saveFile user md5 filename _ =>
      user ≠ shareCountKey ∨ (∀ r ∈ s.fileInfo, r.md5 ≠ md5) ∨
        ∃ file ∈ s.userFileList, file.key = (user, md5, filename)
  | .delFile user md5 filename => DeletionRanked R s user md5 filename
  | .shareFile _ md5 filename _ =>
      R.zlexcount s.filePublicZset (md5 ++ filename) ≠ 0 ∨
        (∃ r ∈ s.shareFileList, r.fileKey = (md5, filename) ∧ r.pv = 0) ∨
        ∀ r ∈ s.shareFileList, r.fileid ≠ md5 ++ filename
  | .cancelShareFile user md5 filename =>
      (∃ r ∈ s.shareFileList, r.key = (user, md5, filename)) ∨ shareCountKey ∉ s.userFileCount
  | .pvFile md5 filename =>
      R.zlexcount s.filePublicZset (md5 ++ filename) ≤ 1 ∨
        ∀ r ∈ s.shareFileList, r.fileKey ≠ (md5, filename)
  | .getRankingFilelist start count =>
      count < 0 ∨ (0 ≤ start ∧ count < 2 ^ 31 ∧ start + count ≤ 2 ^ 31)
  | .flushRedis => True

/-- The answer to a ranking request, when it succeeds, is the slice asked for. -/
def AnswerCorrect (R : RedisServer) (s : Store) : Request → Prop
  | .getRankingFilelist start count => ∀ items,
      (run (servers R) (getRankingFilelist start count) s).1 = .ok items →
        RankingSlice s.shareFileList start count items
  | _ => True

/-- The invariant: the counter and the copies are right. -/
def RankInv (s : Store) : Prop :=
  RankTables (s.countOf shareCountKey) s.shareFileList s.filePublicZset s.fileNameHash

namespace RankInv

variable {s t : Store} {user md5 filename now : String} {R : RedisServer}

theorem of_tables {counter : ℤ} {shares : List ShareFile} {zset : ScoreSet String}
    {hash : Finmap (fun _ : String => String)} (h : RankTables counter shares zset hash)
    (hcounter : t.countOf shareCountKey = counter) (hshares : t.shareFileList = shares)
    (hzset : t.filePublicZset = zset) (hhash : t.fileNameHash = hash) : RankInv t := by
  subst hcounter hshares hzset hhash
  exact h

theorem empty : RankInv Store.empty := .nil

theorem flushRedis (h : RankInv s) : RankInv s.flushRedis := h.flush

/-- The refresh keeps the copies right, and after it nothing is missing. -/
theorem refreshRanking (h : RankInv s) :
    RankInv s.refreshRanking ∧
      (shareCountKey ∈ s.userFileCount → ∀ id, s.refreshRanking.filePublicZset.score id =
        column ShareFile.fileid ShareFile.pv s.shareFileList id) := by
  cases hc : s.userFileCount.lookup shareCountKey with
  | none =>
    have hsame : s.refreshRanking = s := by simp only [Store.refreshRanking, hc]
    rw [hsame]
    exact ⟨h, fun hu => absurd hu (Finmap.lookup_eq_none.mp hc)⟩
  | some sqlNum =>
    by_cases hn : (s.filePublicZset.card : ℤ) = sqlNum
    · have hsame : s.refreshRanking = s := by simp only [Store.refreshRanking, hc, if_pos hn]
      have hlen : (s.filePublicZset.card : ℤ) = (s.shareFileList.length : ℤ) := by
        rw [hn, ← h.counter_eq, Store.countOf, hc]
        rfl
      rw [hsame]
      refine ⟨h, fun _ => h.scores.complete_of_length s.filePublicZset.ranking_nodup ?_ ?_⟩
      · intro id hid
        exact (s.filePublicZset.mem_iff_score id).mp ((s.filePublicZset.mem_ranking id).mp hid)
      · rw [ScoreSet.ranking_length]
        omega
    · have hsame : s.refreshRanking =
          s.clearRanking.importRanking (shareFilesByPv s.shareFileList) := by
        simp only [Store.refreshRanking, hc, if_neg hn]
      obtain ⟨hshares, -, hcounts⟩ :=
        s.clearRanking.importRanking_tables (shareFilesByPv s.shareFileList)
      obtain ⟨htables, hall⟩ := RankTables.importRanking s.clearRanking
        (shareFilesByPv s.shareFileList) h.flush (fun r hr => mem_shareFilesByPv.mp hr)
      rw [hsame]
      refine ⟨of_tables htables ?_ hshares rfl rfl, fun _ => htables.scores.complete ?_⟩
      · rw [Store.countOf, hcounts]
        rfl
      · intro r hr
        exact (ScoreSet.mem_iff_score _ _).mp
          (hall r.fileid (.inr ⟨r, mem_shareFilesByPv.mpr hr, rfl⟩))

/-- A successful answer is the slice it was asked for. -/
theorem rankingAnswer (h : RankInv s) {start count : ℤ} (hstart : 0 ≤ start)
    (hint : count < 2 ^ 31) (hend : start + count ≤ 2 ^ 31) {items : List (String × ℤ)}
    (hitems : s.rankingAnswer start count = .ok items) :
    RankingSlice s.shareFileList start count items := by
  cases hc : s.userFileCount.lookup shareCountKey with
  | none => simp [Store.rankingAnswer, hc] at hitems
  | some sqlNum =>
    simp only [Store.rankingAnswer, hc] at hitems
    split_ifs at hitems with hempty hcount
    obtain ⟨hinv, hall⟩ := h.refreshRanking
    obtain ⟨hshares, -, -⟩ := s.refreshRanking_tables
    obtain ⟨order, hmap, hperm, hdesc⟩ := RankTables.exists_order hinv
      (by rw [hshares]; exact hall (Finmap.mem_of_lookup_eq_some hc))
    rw [rankingPage_eq _ hstart (not_lt.mp hcount) hint hend, ← hmap, ← List.map_take,
      ← List.map_drop] at hitems
    cases hm : (((order.take (start + count).toNat).drop start.toNat).map
        ShareFile.fileid).mapM s.refreshRanking.rankingItem with
    | none =>
      rw [hm] at hitems
      cases hitems
    | some found =>
      rw [hm] at hitems
      obtain rfl := Except.ok.inj hitems
      refine ⟨order, hshares ▸ hperm, hdesc, ?_⟩
      refine RankTables.rankingItems_eq _ hinv (fun r hr => hperm.mem_iff.mp ?_) hm
      exact List.mem_of_mem_take (List.mem_of_mem_drop hr)

/-- Without a counter no file is shared. -/
theorem shares_eq_nil (h : RankInv s) (hnone : shareCountKey ∉ s.userFileCount) :
    s.shareFileList = [] := by
  have hlen := h.counter_eq
  rw [s.countOf_of_not_mem hnone] at hlen
  exact List.length_eq_zero_iff.mp (by exact_mod_cast hlen.symm)

/-- The rows named by a condition on columns that fix the file id are one row. -/
theorem only_row (h : RankInv s) {p : ShareFile → Bool} {r : ShareFile} (hr : r ∈ s.shareFileList)
    (hpr : p r = true) (hp : ∀ r', p r' = true → r'.fileid = md5 ++ filename) :
    ∀ r' ∈ s.shareFileList, p r' = true ↔ r' = r := by
  intro r' hr'
  refine ⟨fun hpr' => ?_, fun he => he ▸ hpr⟩
  exact List.inj_on_of_nodup_map h.fileid_nodup hr' hr ((hp r' hpr').trans (hp r hpr).symm)

theorem fileid_of_named {r : ShareFile} (h : ShareFile.named user md5 filename r = true) :
    r.fileid = md5 ++ filename := by
  obtain ⟨-, hmd5, hname⟩ := of_decide_eq_true h
  rw [ShareFile.fileid, hmd5, hname]

theorem fileid_of_ofFile {r : ShareFile} (h : ShareFile.ofFile md5 filename r = true) :
    r.fileid = md5 ++ filename := by
  obtain ⟨hmd5, hname⟩ := of_decide_eq_true h
  rw [ShareFile.fileid, hmd5, hname]

/-- A share taken off the list, with its entries in redis. -/
theorem dropShare (h : RankInv s) (hshared : ∃ r ∈ s.shareFileList, r.key = (user, md5, filename)) :
    RankTables (s.countOf shareCountKey - 1)
      (deleteWhere (fun r => decide (r.key = (user, md5, filename))) s.shareFileList)
      (s.filePublicZset.erase (md5 ++ filename)) (s.fileNameHash.erase (md5 ++ filename)) := by
  obtain ⟨r, hr, hk⟩ := hshared
  have hnamed : ShareFile.named user md5 filename r = true := by
    rw [ShareFile.named_eq_key]
    exact decide_eq_true hk
  rw [← ShareFile.named_eq_key, ← fileid_of_named hnamed]
  exact RankTables.dropRow h hr (h.only_row hr hnamed (fun _ => fileid_of_named))

/-- What is not in the sorted set has no entries to lose. -/
theorem erase_eq (h : RankInv s) {id : String} (hid : id ∉ s.filePublicZset) :
    s.filePublicZset.erase id = s.filePublicZset ∧ s.fileNameHash.erase id = s.fileNameHash := by
  refine ⟨ScoreSet.erase_of_not_mem _ hid, Finmap.ext_lookup fun id' => ?_⟩
  by_cases he : id' = id
  · subst he
    rw [Finmap.lookup_erase, Finmap.lookup_eq_none.mpr (fun hm => hid (h.names_mem _ hm))]
  · exact Finmap.lookup_erase_ne he

theorem addNewFile (h : RankInv s) {row : FileInfo} {file : UserFile}
    (huser : file.user ≠ shareCountKey) : RankInv (s.addNewFile row file) := by
  refine of_tables h ?_ rfl rfl rfl
  rw [Store.addNewFile, Store.countOf_increaseCount, if_neg huser, add_zero]
  rfl

theorem gainFile (h : RankInv s) (hsafe : user ≠ shareCountKey ∨ (∀ r ∈ s.fileInfo, r.md5 ≠ md5) ∨
      ∃ file ∈ s.userFileList, file.key = (user, md5, filename)) :
    RankInv (s.gainFile user md5 now filename) := by
  rcases s.gainFile_cases user md5 now filename with ⟨r, hr, hmd5, hnew, he⟩ | he
  · have huser : user ≠ shareCountKey := by
      rcases hsafe with hsafe | hsafe | ⟨file, hfile, hkey⟩
      · exact hsafe
      · exact absurd hmd5 (hsafe r hr)
      · exact absurd hkey (hnew file hfile)
    rw [he]
    refine of_tables h ?_ rfl rfl rfl
    rw [Store.addOwner, Store.countOf_increaseCount, newUserFile, if_neg huser, add_zero]
    rfl
  · rw [he]
    exact h

theorem shareFile (h : RankInv s)
    (hsafe : R.zlexcount s.filePublicZset (md5 ++ filename) ≠ 0 ∨
      (∃ r ∈ s.shareFileList, r.fileKey = (md5, filename) ∧ r.pv = 0) ∨
      ∀ r ∈ s.shareFileList, r.fileid ≠ md5 ++ filename) :
    RankInv (s.shareFile R user md5 now filename) := by
  unfold Store.shareFile
  by_cases hz : R.zlexcount s.filePublicZset (md5 ++ filename) = 0
  · rw [if_pos hz]
    have hsafe' := hsafe.resolve_left (not_not.mpr hz)
    cases hf : s.sharesOf md5 filename with
    | cons r rows =>
      have hr : r ∈ s.sharesOf md5 filename := hf ▸ List.mem_cons_self
      obtain ⟨hr, hfile⟩ := List.mem_filter.mp hr
      have hid := fileid_of_ofFile hfile
      rcases hsafe' with ⟨r', hr', hk, hpv⟩ | hnone
      · have hid' : r'.fileid = md5 ++ filename :=
          fileid_of_ofFile (by rw [ShareFile.ofFile_eq_key]; exact decide_eq_true hk)
        have hsame := RankTables.setScore h hr'
        rw [hid', hpv] at hsame
        exact hsame
      · exact absurd hid (hnone r hr)
    | nil =>
      have hnew := s.sharesOf_eq_nil.mp hf
      have hnew' : ∀ r ∈ s.shareFileList, r.fileid ≠ (newShareFile user md5 now filename).fileid := by
        rcases hsafe' with ⟨r, hr, hk, -⟩ | hnone
        · exact absurd hk (hnew r hr)
        · exact hnone
      have hrow := RankTables.addRow h hnew'
      have hmem : newShareFile user md5 now filename ∈
          s.shareFileList ++ [newShareFile user md5 now filename] := by simp
      refine of_tables ((hrow.setScore hmem).setName hmem ((ScoreSet.mem_add _ _ _ _).mpr (.inl rfl)))
        ?_ rfl rfl rfl
      exact (s.setSharedStatus user md5 filename 1).countOf_increaseCount shareCountKey _
  · rw [if_neg hz]
    exact h

theorem cancelShareFile (h : RankInv s)
    (hsafe : (∃ r ∈ s.shareFileList, r.key = (user, md5, filename)) ∨
      shareCountKey ∉ s.userFileCount) :
    RankInv (s.cancelShareFile user md5 filename) := by
  unfold Store.cancelShareFile
  cases hc : s.userFileCount.lookup shareCountKey with
  | none => exact h
  | some count =>
    have hshared := hsafe.resolve_right (not_not.mpr (Finmap.mem_of_lookup_eq_some hc))
    refine of_tables (h.dropShare hshared) ?_ ?_ rfl ?_
    · have hcount := s.countOf_decreaseCount hc shareCountKey
      rw [if_pos rfl] at hcount
      have hsame : (s.decreaseCount shareCountKey count).countOf shareCountKey =
          s.countOf shareCountKey - 1 := by omega
      exact hsame
    · rw [← ShareFile.named_eq_key]
      rfl
    · by_cases hid : md5 ++ filename ∈ s.filePublicZset
      · exact if_pos hid
      · rw [(h.erase_eq hid).2]
        exact if_neg hid

theorem deleteOwn (h : RankInv s) (huser : user ≠ shareCountKey ∨ user ∉ s.userFileCount) :
    RankInv (s.deleteOwn user md5 filename) := by
  obtain ⟨hzset, hhash⟩ := s.deleteOwn_redis user md5 filename
  refine of_tables h ?_ (s.deleteOwn_shareFileList user md5 filename) hzset hhash
  have hcount := s.countOf_deleteOwn user md5 filename shareCountKey
  have hnot : ¬ (user = shareCountKey ∧ user ∈ s.userFileCount) := by tauto
  rwa [if_neg hnot, add_zero] at hcount

theorem deleteShared (h : RankInv s) (flag : Bool)
    (hsafe : shareCountKey ∉ s.userFileCount ∨ (user ≠ shareCountKey ∧
      (∃ r ∈ s.shareFileList, r.key = (user, md5, filename)) ∧
        (flag = true ∨ md5 ++ filename ∉ s.filePublicZset))) :
    RankInv (s.deleteShared user md5 filename flag) := by
  cases hc : s.userFileCount.lookup shareCountKey with
  | none =>
    have hnil := h.shares_eq_nil (Finmap.lookup_eq_none.mp hc)
    have hsame : s.deleteShared user md5 filename flag = s := by
      simp only [Store.deleteShared, hc, Store.dropShareFile]
      rw [deleteWhere_of_none (by simp [hnil])]
    rw [hsame]
    exact h
  | some count =>
    obtain ⟨huser, hshared, hflag⟩ :=
      hsafe.resolve_left (not_not.mpr (Finmap.mem_of_lookup_eq_some hc))
    obtain ⟨-, hshares, hcount⟩ := s.deleteShared_tables user md5 filename hc flag
    rw [if_neg huser, add_zero] at hcount
    have hredis := (s.unshareFile user md5 filename flag count).deleteOwn_redis user md5 filename
    have hstate : s.deleteShared user md5 filename flag =
        (s.unshareFile user md5 filename flag count).deleteOwn user md5 filename := by
      simp only [Store.deleteShared, hc]
    rw [← hstate] at hredis
    refine of_tables (h.dropShare hshared) hcount hshares ?_ ?_
    · rw [hredis.1]
      cases flag with
      | true => rfl
      | false => exact (h.erase_eq (hflag.resolve_left (by simp))).1.symm
    · rw [hredis.2]
      cases flag with
      | true => rfl
      | false => exact (h.erase_eq (hflag.resolve_left (by simp))).2.symm

theorem delFile (h : RankInv s) (hsafe : DeletionRanked R s user md5 filename) :
    RankInv (s.delFile R user md5 filename) := by
  unfold Store.delFile
  cases hflags : s.shareFlags R user md5 filename with
  | none => exact h
  | some flags =>
    obtain ⟨share, flag⟩ := flags
    rw [DeletionRanked, hflags] at hsafe
    have hsafe' := hsafe.resolve_left (by simp)
    by_cases hshare : share = 1
    · simp only [hshare, if_true]
      refine h.deleteShared flag (hsafe'.imp_right (fun hs => ⟨hs.1, ?_⟩))
      have hs' := hs.2 (by simp [hshare])
      simpa [hshare] using hs'
    · simp only [hshare, if_false]
      by_cases huser : user = shareCountKey
      · refine h.deleteOwn (.inr ?_)
        rw [huser]
        exact hsafe'.resolve_right (fun hs => hs.1 huser)
      · exact h.deleteOwn (.inl huser)

theorem pvFile (h : RankInv s) (hsafe : R.zlexcount s.filePublicZset (md5 ++ filename) ≤ 1 ∨
      ∀ r ∈ s.shareFileList, r.fileKey ≠ (md5, filename)) :
    RankInv (s.pvFile R md5 filename) := by
  cases hf : s.sharesOf md5 filename with
  | nil =>
    simp only [Store.pvFile, hf]
    exact h
  | cons r rows =>
    have hr : r ∈ s.sharesOf md5 filename := hf ▸ List.mem_cons_self
    obtain ⟨hr, hfile⟩ := List.mem_filter.mp hr
    have hid := fileid_of_ofFile hfile
    have hcount := RankTables.countDownload h hr
      (h.only_row hr hfile (fun _ => fileid_of_ofFile)) (r.pv + 1)
    have hle : R.zlexcount s.filePublicZset (md5 ++ filename) ≤ 1 := by
      rcases hsafe with hsafe | hsafe
      · exact hsafe
      · exact absurd hf (by rw [s.sharesOf_eq_nil.mpr hsafe]; simp)
    simp only [Store.pvFile, hf, Store.markRanking]
    have hsame : (s.setSharePv md5 filename (r.pv + 1)).filePublicZset = s.filePublicZset := rfl
    rw [hsame]
    rcases hz : R.zlexcount s.filePublicZset (md5 ++ filename) with _ | _ | n
    · have hmem : { r with pv := r.pv + 1 } ∈ updateWhere (ShareFile.ofFile md5 filename)
          (fun r' => { r' with pv := r.pv + 1 }) s.shareFileList :=
        mem_updateWhere.mpr (.inl ⟨r, hr, hfile, rfl⟩)
      have hname := hcount.setName hmem ((ScoreSet.mem_add _ _ _ _).mpr (.inl rfl))
      change RankTables _ _ _ (s.fileNameHash.insert r.fileid r.fileName) at hname
      rw [hid, (of_decide_eq_true hfile).2] at hname
      exact hname
    · have hmem := R.mem_of_zlexcount s.filePublicZset (md5 ++ filename) (by omega)
      obtain ⟨c, hc⟩ := (ScoreSet.mem_iff_score _ _).mp hmem
      have hpv := h.scores _ c hc
      rw [← hid, column_of_mem h.fileid_nodup hr] at hpv
      rw [hid] at hcount
      rw [hc, ← Option.some.inj hpv]
      exact hcount
    · omega

/-- Each safe request keeps the invariant. -/
theorem step (h : RankInv s) {req : Request} (hsafe : RankSafe R s req) :
    RankInv (step R s req) := by
  cases req with
  | upload user filename md5 size fileid fdfsFileUrl now =>
    rw [step_upload]
    exact addNewFile (s := s.storeObject fileid) h hsafe
  | dealMd5 user md5 filename now =>
    rw [step_dealMd5]
    exact h.gainFile hsafe
  | saveFile user md5 filename now =>
    rw [step_saveFile]
    exact h.gainFile hsafe
  | delFile user md5 filename =>
    rw [step_delFile]
    exact h.delFile hsafe
  | shareFile user md5 filename now =>
    rw [step_shareFile]
    exact h.shareFile hsafe
  | cancelShareFile user md5 filename =>
    rw [step_cancelShareFile]
    exact h.cancelShareFile hsafe
  | pvFile md5 filename =>
    rw [step_pvFile]
    exact h.pvFile hsafe
  | getRankingFilelist start count =>
    rw [step_getRankingFilelist]
    exact h.refreshRanking.1
  | flushRedis => exact h.flushRedis

/-- In a state of the invariant a safe ranking request is answered correctly. -/
theorem answerCorrect (h : RankInv s) {req : Request} (hsafe : RankSafe R s req) :
    AnswerCorrect R s req := by
  cases req with
  | getRankingFilelist start count =>
    intro items hitems
    rw [run_getRankingFilelist] at hitems
    rcases hsafe with hneg | ⟨hstart, hint, hend⟩
    · unfold Store.rankingAnswer at hitems
      split at hitems
      · cases hitems
      · split_ifs at hitems
    · exact h.rankingAnswer hstart hint hend hitems
  | _ => trivial

end RankInv

/-- Along a run of safe requests from empty stores, with redis emptied at any
moments, every ranking request that succeeds answers the slice it asks for. -/
theorem ranking_correct (R : RedisServer) (requests : List Request)
    (hsafe : Along (step R) (RankSafe R) Store.empty requests) :
    Along (step R) (AnswerCorrect R) Store.empty requests := by
  have hstep : ∀ s req, RankInv s → RankSafe R s req → RankInv (step R s req) :=
    fun _ _ h hs => h.step hs
  exact (invariant_rule hstep RankInv.empty hsafe).2.mono (fun _ _ h => h.1.answerCorrect h.2)

instance (R : RedisServer) (s : Store) (user md5 filename : String) :
    Decidable (DeletionRanked R s user md5 filename) := by
  unfold DeletionRanked
  infer_instance

instance (R : RedisServer) (s : Store) : (req : Request) → Decidable (RankSafe R s req)
  | .upload user .. => inferInstanceAs (Decidable (user ≠ shareCountKey))
  | .dealMd5 user md5 filename _ | .saveFile user md5 filename _ =>
      inferInstanceAs (Decidable (user ≠ shareCountKey ∨ (∀ r ∈ s.fileInfo, r.md5 ≠ md5) ∨
        ∃ file ∈ s.userFileList, file.key = (user, md5, filename)))
  | .delFile user md5 filename => inferInstanceAs (Decidable (DeletionRanked R s user md5 filename))
  | .shareFile _ md5 filename _ =>
      inferInstanceAs (Decidable (R.zlexcount s.filePublicZset (md5 ++ filename) ≠ 0 ∨
        (∃ r ∈ s.shareFileList, r.fileKey = (md5, filename) ∧ r.pv = 0) ∨
        ∀ r ∈ s.shareFileList, r.fileid ≠ md5 ++ filename))
  | .cancelShareFile user md5 filename =>
      inferInstanceAs (Decidable ((∃ r ∈ s.shareFileList, r.key = (user, md5, filename)) ∨
        shareCountKey ∉ s.userFileCount))
  | .pvFile md5 filename =>
      inferInstanceAs (Decidable (R.zlexcount s.filePublicZset (md5 ++ filename) ≤ 1 ∨
        ∀ r ∈ s.shareFileList, r.fileKey ≠ (md5, filename)))
  | .getRankingFilelist start count =>
      inferInstanceAs (Decidable (count < 0 ∨
        (0 ≤ start ∧ count < 2 ^ 31 ∧ start + count ≤ 2 ^ 31)))
  | .flushRedis => .isTrue trivial

/-- Two shared files, downloads, a flush, more downloads and the ranking. -/
def flushedRanking : List Request :=
  [.shareFile "milo" "m1" "a.txt" "t1", .pvFile "m1" "a.txt", .shareFile "guest" "m2" "b.txt" "t2",
    .flushRedis, .pvFile "m2" "b.txt", .getRankingFilelist 0 10, .cancelShareFile "milo" "m1" "a.txt",
    .getRankingFilelist 0 10]

theorem ranking_correct_flushedRanking :
    Along (step .exact) (AnswerCorrect .exact) Store.empty flushedRanking :=
  ranking_correct .exact flushedRanking (by decide)

/-- A file with two downloads is shared again after redis was emptied. -/
def resharedFile : List Request :=
  [.shareFile "milo" "m1" "a.txt" "t1", .pvFile "m1" "a.txt", .pvFile "m1" "a.txt", .flushRedis,
    .shareFile "milo" "m2" "b.txt" "t2", .shareFile "milo" "m1" "a.txt" "t3"]

/-- The refused second sharing puts the file into the sorted set with the score 0,
and the file without downloads is answered as the first. -/
theorem resharedFile_breaks :
    (run (servers .exact) (getRankingFilelist 0 1)
        (finalState (step .exact) Store.empty resharedFile)).1 = .ok [("b.txt", 0)] ∧
      ¬ Along (step .exact) (AnswerCorrect .exact) Store.empty
        (resharedFile ++ [.getRankingFilelist 0 1]) := by
  have hanswer : (run (servers .exact) (getRankingFilelist 0 1)
      (finalState (step .exact) Store.empty resharedFile)).1 = .ok [("b.txt", 0)] := rfl
  refine ⟨hanswer, fun h => ?_⟩
  obtain ⟨order, hperm, hdesc, hitems⟩ := (along_append.mp h).2.1 _ hanswer
  have hdownloaded : { newShareFile "milo" "m1" "t1" "a.txt" with pv := 2 } ∈ order :=
    hperm.mem_iff.mpr (by decide)
  cases order with
  | nil => simp at hdownloaded
  | cons r rest =>
    have hfirst : ("b.txt", (0 : ℤ)) = (r.fileName, r.pv) := by simpa using hitems
    rcases List.mem_cons.mp hdownloaded with rfl | hrest
    · exact absurd hfirst (by decide)
    · have hle : 2 ≤ r.pv := (List.pairwise_cons.mp hdesc).1 _ hrest
      have hzero : 0 = r.pv := (Prod.mk.inj hfirst).2
      omega

end CServer.CloudDisk
