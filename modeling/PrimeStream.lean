import PrimeStream.Main
import PrimeStream.Proofs.CheckedSieve
import PrimeStream.Proofs.CommandPartition
import PrimeStream.Proofs.DivisorSearch
import PrimeStream.Proofs.ListingClose
import PrimeStream.Proofs.ListingCounts
import PrimeStream.Proofs.ListingReading
import PrimeStream.Proofs.ProgramRun
import PrimeStream.Proofs.SieveCoverage
import PrimeStream.Proofs.SieveRounds
