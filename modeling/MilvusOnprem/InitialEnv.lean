import MilvusOnprem.WrittenEnv

/-!
# The first cluster.env

The file that `init` writes from its flags, line by line as the commands echo it. For flags
that can be written without quotes it is a file of the store, whichever of the optional
settings are there.
-/
namespace MilvusOnprem.InitialEnv

open EnvStore WrittenEnv Assignments

/-! ## The file -/

/-- What `init` has when it writes the file. An optional flag that is not given is empty. -/
structure InitArgs where
  date : Word
  repoRoot : Word
  mode : Word
  localIp : Word
  clusterName : Word
  imageTag : Word
  secret : Word
  token : Word
  dataRoot : Word
  milvusPort : Word
  lbPort : Word
  etcdClient : Word
  etcdPeer : Word
  minioApi : Word
  cpPort : Word
  haClusterSize : Word

/-- Commands that run always, or only if a value is not empty. -/
structure Block where
  guard : Option (InitArgs → Word)
  echoes : List (Echo InitArgs)

def Block.runs (a : InitArgs) (b : Block) : Bool := b.guard.all fun value => decide ((value a).value ≠ "")

/-- `_init_write_cluster_env` -/
def initBlocks : List Block := [
  ⟨none, [
    .note "# =============================================================================",
    .note "# milvus-onprem cluster.env",
    .noteOf "# Generated by 'milvus-onprem init' at " (·.date),
    .noteOf "# Mode: " (·.mode),
    .note "# =============================================================================",
    .blank,
    .note "# Deploy shape. Don't change post-init; teardown + re-init to switch.",
    .setting "MODE" (·.mode),
    .blank,
    .note "# Topology — comma-separated IPs and the matching etcd-side",
    .note "# names of every peer. At init we know only this node; the",
    .note "# daemon (distributed mode) keeps both lists in sync as peers",
    .note "# join via etcd. PEER_IPS and PEER_NAMES are parallel arrays —",
    .note "# they must stay the same length, in the same order, sorted by",
    .note "# node-N suffix. For standalone, both stay as a single entry.",
    .setting "PEER_IPS" (·.localIp),
    .fixed "PEER_NAMES" "node-1",
    .setting "CLUSTER_NAME" (·.clusterName),
    .blank,
    .note "# Stable per-peer values. NODE_NAME / LOCAL_IP / HOST_REPO_ROOT are",
    .note "# rewritten when this file is distributed to a joining peer.",
    .fixed "NODE_NAME" "node-1",
    .setting "LOCAL_IP" (·.localIp),
    .note "# Host filesystem path of this repo. Used as the bind-mount SOURCE",
    .note "# for the control-plane daemon's /repo and cluster.env mounts. This",
    .note "# must be the HOST path, not the in-container path — otherwise the",
    .note "# daemon's re-render from inside the container would substitute",
    .note "# /repo as the source and docker would silently bind empty dirs.",
    .setting "HOST_REPO_ROOT" (·.repoRoot),
    .blank,
    .note "# MinIO credentials (must match across all peers).",
    .fixed "MINIO_ACCESS_KEY" "minioadmin",
    .setting "MINIO_SECRET_KEY" (·.secret),
    .fixed "MINIO_REGION" "us-east-1"]⟩,
  ⟨some (·.token), [
    .blank,
    .note "# Shared bearer token for the control-plane daemon. KEEP SECRET.",
    .setting "CLUSTER_TOKEN" (·.token)]⟩,
  ⟨none, [
    .blank,
    .note "# Container image versions. Bumping the patch (e.g. v2.6.12) is safe;",
    .note "# bumping major.minor changes which templates/<version>/ directory is used.",
    .setting "MILVUS_IMAGE_TAG" (·.imageTag),
    .fixed "ETCD_IMAGE_TAG" "v3.5.25",
    .fixed "MINIO_IMAGE_TAG" "RELEASE.2024-05-28T17-19-04Z",
    .fixed "NGINX_IMAGE_TAG" "1.27-alpine",
    .blank,
    .note "# Data root — all on-disk state under here.",
    .setting "DATA_ROOT" (·.dataRoot)]⟩,
  ⟨some (·.milvusPort), [.setting "MILVUS_PORT" (·.milvusPort)]⟩,
  ⟨some (·.lbPort), [.setting "NGINX_LB_PORT" (·.lbPort)]⟩,
  ⟨some (·.etcdClient), [.setting "ETCD_CLIENT_PORT" (·.etcdClient)]⟩,
  ⟨some (·.etcdPeer), [.setting "ETCD_PEER_PORT" (·.etcdPeer)]⟩,
  ⟨some (·.minioApi), [.setting "MINIO_API_PORT" (·.minioApi)]⟩,
  ⟨some (·.cpPort), [.setting "CONTROL_PLANE_PORT" (·.cpPort)]⟩,
  ⟨some (·.haClusterSize), [
    .blank,
    .note "# MinIO HA pool size — set at init time, frozen for the life of",
    .note "# the cluster. The first N peers form one erasure-coded pool",
    .note "# that tolerates loss of any single host. Peers joining after",
    .note "# the first N land in additional per-host pools (no cross-host",
    .note "# parity for their share of writes). Unset = legacy per-host",
    .note "# pools (no host-loss tolerance, but join-time scale-out is",
    .note "# trivially safe). See docs/FAILOVER.md.",
    .setting "MINIO_HA_POOL_SIZE" (·.haClusterSize)]⟩,
  ⟨none, [
    .blank,
    .note "# Defaults applied automatically (uncomment to override):",
    .note "# MQ_TYPE=woodpecker          # 2.6: woodpecker only.   2.5: pulsar only",
    .note "# MILVUS_HEALTHZ_PORT=9091",
    .note "# MINIO_CONSOLE_PORT=9001",
    .note "# CONTROL_PLANE_IMAGE=milvus-onprem-cp:dev"]⟩]

/-- The commands that run. -/
def initEchoes (a : InitArgs) : List (Echo InitArgs) := (initBlocks.filter (Block.runs a)).flatMap Block.echoes

/-- The text of the file. -/
def initWriteClusterEnv (a : InitArgs) : String := echoed a (initEchoes a)

/-- The settings of the file. -/
def initMap (a : InitArgs) (key : String) : Option String := last key ((initEchoes a).filterMap (Echo.entry a))

/-! ## A file of the store -/

theorem noted_initBlocks : ∀ e ∈ initBlocks.flatMap Block.echoes, e.noted = true := by
  simp only [initBlocks, List.flatMap_cons, List.flatMap_nil, List.append_nil, List.cons_append, List.nil_append,
    List.forall_mem_cons, List.not_mem_nil, IsEmpty.forall_iff, implies_true, Echo.noted, true_and, and_true]
  and_intros
  all_goals exact isNote_ofList (by decide +kernel)

theorem named_initBlocks : ∀ e ∈ initBlocks.flatMap Block.echoes, e.named = true := by decide +kernel

theorem keys_initBlocks : ((initBlocks.flatMap Block.echoes).filterMap Echo.key).Nodup := by decide +kernel

/-- `init` writes a file of the store. -/
theorem init_file (a : InitArgs) : ∃ f : EnvFile, f.text = initWriteClusterEnv a ∧ f.lookup = initMap a := by
  have hsub : (initEchoes a).Sublist (initBlocks.flatMap Block.echoes) := by
    have hblocks : ∀ bs : List Block,
        ((bs.filter (Block.runs a)).flatMap Block.echoes).Sublist (bs.flatMap Block.echoes) := by
      intro bs
      induction bs with
      | nil => exact List.Sublist.refl _
      | cons b bs ih =>
          rw [List.filter_cons, List.flatMap_cons]
          split_ifs
          · rw [List.flatMap_cons]
            exact ih.append_left b.echoes
          · exact ih.trans (List.sublist_append_right _ _)
    exact hblocks initBlocks
  obtain ⟨f, htext, hentries⟩ := exists_file a (fun e he => noted_initBlocks e (hsub.subset he))
    (fun e he => named_initBlocks e (hsub.subset he)) ((hsub.filterMap Echo.key).nodup keys_initBlocks)
  exact ⟨f, htext, funext fun key => congrArg (last key) hentries⟩

end MilvusOnprem.InitialEnv
