import DouyinCaption.Openings
import DouyinCaption.Transactions

/-!
# Requests served without interruption

What `handle` does to the database: nothing, or the commit of what the request decided from the
rows it loaded (`commit_of_handle`).
-/

namespace DouyinCaption

open Tables

variable {cfg : Config} {db db' : Db} {m : Uuid} {st : Stamp} {r : Request}

/-- A request that is answered with success committed its writes, or another had. -/
theorem Pending.complete_eq_ok {p : Pending} {reply : Reply}
    (h : p.complete cfg db m st = (db', .ok reply)) :
    (∃ out, p.finish cfg db m st = .ok out ∧ db.commit out.writes = some db' ∧
      out.reply db' = .ok reply) ∨ db' = db ∧ p.integrityError cfg db = .ok reply := by
  rw [Pending.complete] at h
  split at h
  · cases (Prod.mk.inj h).2
  · rename_i out hout
    split at h
    · obtain ⟨rfl, hr⟩ := Prod.mk.inj h
      exact .inr ⟨rfl, hr⟩
    · rename_i db₁ hc
      obtain ⟨rfl, hr⟩ := Prod.mk.inj h
      exact .inl ⟨out, hout, hc, hr⟩

theorem Pending.commit_of_complete {p : Pending} {response : Response}
    (h : p.complete cfg db m st = (db', response)) :
    db' = db ∨ ∃ out, p.finish cfg db m st = .ok out ∧ db.commit out.writes = some db' ∧
      response = out.reply db' := by
  rw [Pending.complete] at h
  split at h
  · exact .inl (Prod.mk.inj h).1.symm
  · rename_i out hout
    split at h
    · exact .inl (Prod.mk.inj h).1.symm
    · rename_i db₁ hc
      obtain ⟨rfl, hr⟩ := Prod.mk.inj h
      exact .inr ⟨out, hout, hc, hr.symm⟩

/-- Refreshing the rows of a request against the database that loaded them changes nothing. -/
theorem Pending.refresh_of_loaded {pd : Pending} (h : pd.LoadedBy cfg db m r) :
    pd.refresh db = pd := by
  cases pd with
  | submit s =>
    have hget := Table.get_of_mem (h.task s.task rfl).1
    have hrow : db.tasks.get s.task.id = some s.task := hget
    simp [Pending.refresh, hrow]
  | _ => rfl

/-- **What a request does.** It leaves the database as it is, or commits what it decided from
the rows it loaded; then its task, if it locks one, had no active operation. -/
theorem commit_of_handle {response : Response} (h : handle cfg db m st r = (db', response)) :
    db' = db ∨ ∃ pd out, opening cfg db m r = .pending pd ∧
      (∀ t, pd.task = some t → db.hasActive t.id = false) ∧
      pd.finish cfg db m st = .ok out ∧ db.commit out.writes = some db' ∧
      response = out.reply db' := by
  rw [handle] at h
  rcases ho : opening cfg db m r with answer | pd
  · rw [ho] at h
    exact .inl (Prod.mk.inj h).1.symm
  rw [ho] at h
  rcases ht : pd.task with _ | t
  · simp only [ht] at h
    refine (Pending.commit_of_complete h).imp_right fun ⟨out, hf, hc, hr⟩ => ?_
    exact ⟨pd, out, rfl, by simp [ht], hf, hc, hr⟩
  · simp only [ht] at h
    split at h
    · exact .inl (Prod.mk.inj h).1.symm
    · rename_i hactive
      rw [Pending.refresh_of_loaded (loadedBy_of_opening ho)] at h
      refine (Pending.commit_of_complete h).imp_right fun ⟨out, hf, hc, hr⟩ => ?_
      refine ⟨pd, out, rfl, fun t' ht' => ?_, hf, hc, hr⟩
      obtain rfl := Option.some.inj (ht.symm.trans ht')
      simpa using hactive

/-- A loaded version is the stored one. -/
theorem ownedVersion_eq_ok {taskId versionId : Uuid} {v : ScriptVersion}
    (h : db.ownedVersion taskId versionId m = .ok v) : db.versions.get versionId = some v := by
  rw [Db.ownedVersion] at h
  split at h
  · cases h
  · rename_i v' hv
    obtain rfl := Except.ok.inj h
    obtain ⟨hm, hp⟩ := Table.scalar_some hv
    simp only [Bool.and_eq_true, decide_eq_true_eq] at hp
    exact Table.get_eq_some.mpr ⟨hm, hp.1.1⟩

/-- A request that loads a version and its task and is answered with success. -/
theorem complete_of_handle {reply : Reply} {taskId versionId : Uuid}
    (pd : ScriptVersion → RewriteTask → Pending)
    (hopen : opening cfg db m r = .bind (db.ownedVersion taskId versionId m) fun v =>
      .bind (db.ownedTask taskId m) fun t => .pending (pd v t))
    (htask : ∀ v t, (pd v t).task = some t) (hrefresh : ∀ v t, (pd v t).refresh db = pd v t)
    (herr : ∀ v t, (pd v t).integrityError cfg db ≠ .ok reply)
    (h : handle cfg db m st r = (db', .ok reply)) :
    ∃ v t out, db.versions.get versionId = some v ∧ t.id = taskId ∧
      (pd v t).finish cfg db m st = .ok out ∧ db.commit out.writes = some db' ∧
      out.reply db' = .ok reply := by
  rw [handle] at h
  rw [hopen] at h
  rcases hv : db.ownedVersion taskId versionId m with e | v
  · rw [hv] at h
    cases (Prod.mk.inj h).2
  rcases ht : db.ownedTask taskId m with e | t
  · rw [hv, ht] at h
    cases (Prod.mk.inj h).2
  rw [hv, ht] at h
  simp only [Opening.bind, htask, hrefresh] at h
  split at h
  · cases (Prod.mk.inj h).2
  · rcases Pending.complete_eq_ok h with ⟨out, hf, hc, hr⟩ | ⟨-, he⟩
    · exact ⟨v, t, out, ownedVersion_eq_ok hv, (ownedTask_eq_ok ht).2.1, hf, hc, hr⟩
    · exact absurd he (herr v t)

end DouyinCaption
