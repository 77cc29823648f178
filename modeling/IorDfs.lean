import IorDfs.Engine
import IorDfs.Path
import IorDfs.Namespace
import IorDfs.Xfer
import IorDfs.Spmd
import IorDfs.Session
import IorDfs.Collectives
import IorDfs.Protocol
import IorDfs.Query
import IorDfs.Aggregate
import IorDfs.Handles
import IorDfs.Teardown
import IorDfs.Barrier
